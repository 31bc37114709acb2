import Firmware.Proofs.ObjectHeader.LineScan
import Firmware.Proofs.ObjectHeader.PageScan
import Firmware.Proofs.Uf2.RecordLines
import Firmware.Proofs.Uf2.RoundTrip

/-!
# The same headers in lines and in pages

An image can be put down in lines or, written into a block file, in pages. Its placeholders are then replaced by two
different scans: that of the lines looks at every offset, except for the last three of each line, and that of the pages
at every fourth one. So the two agree where all placeholders that the first one can see are aligned, and differ at any
other one (`replace_agree_iff`).
-/

namespace Firmware

open IntelHex Entry Image Uf2 BlockFile List

/-! ## The contents of the lines -/

namespace IntelHex

variable {b : Bytes}

/-- In the first 64 KB the records of rows write the rows. -/
theorem journal_rows {rows : List (UInt32 × Bytes)} (hrows : ∀ row ∈ rows, row.1.toNat < 65536 ∧ row.2.length = 16) :
    journal 0 (rows.map fun row => ofRow row.1.toUInt16 row.2) = rowJournal rows := by
  induction rows with
  | nil => rfl
  | cons row rest ih =>
    obtain ⟨haddress, hlength⟩ := hrows row (mem_cons_self ..)
    have hback : (0 : UInt32) + row.1.toUInt16.toUInt32 = row.1 := by
      apply UInt32.toNat_inj.1
      rw [UInt32.zero_add, UInt16.toNat_toUInt32, UInt32.toNat_toUInt16]
      exact Nat.mod_eq_of_lt haddress
    rw [map_cons, journal_data rfl, ih fun r hr => hrows r (mem_cons_of_mem row hr), data_ofRow _ (by omega)]
    show Write.mk (0 + row.1.toUInt16.toUInt32) row.2 :: _ = _
    rw [hback]
    rfl

section

variable (hrows : b.length % 16 = 0) (hlen : b.length ≤ 65536)
include hrows hlen

theorem journal_imageEntries : journal 0 (imageEntries 0 b) = rowJournal (byteRows 0 b) := by
  have hwhole : (wholeRows b).length = b.length := by
    rw [length_wholeRows]
    omega
  refine journal_rows fun row hrow => ?_
  have hzero : (0 : UInt32).toNat = 0 := rfl
  have hbounds := bounds_of_mem_byteRows (by rw [hwhole, hzero]; omega) hrow
  rw [hwhole, hzero] at hbounds
  exact ⟨by omega, length_of_mem_byteRows hrow⟩

/-- The lines of an image put its bytes at their offsets. -/
theorem byteAt?_rowJournal_zero (a : UInt32) : (rowJournal (byteRows 0 b)).byteAt? a = b[a.toNat]? := by
  have hwhole : wholeRows b = b := by
    unfold wholeRows
    rw [show (b.length + 15) / 16 * 16 - b.length = 0 by omega, replicate_zero, append_nil]
  rw [byteAt?_rowJournal 0 (by omega), hwhole]
  unfold Write.byteAt?
  rw [UInt32.sub_zero]

theorem byteAt?_contents_imageLines (a : UInt32) : (contents (imageLines 0 b)).byteAt? a = b[a.toNat]? := by
  unfold imageLines
  rw [contents_map_line, journal_imageEntries hrows hlen, byteAt?_rowJournal_zero hrows hlen]

end

end IntelHex

/-! ## Pages -/

namespace Uf2.BlockFile

variable {f : BlockFile} {b : Bytes}

theorem records_of_empty (hf : f.pages = []) : f.Records [] := by
  refine ⟨⟨?_, ?_, ?_⟩, fun a x => ?_⟩
  · rw [pageNumbers, hf]
    exact nodup_nil
  · rw [hf]
    exact fun _ hp => absurd hp not_mem_nil
  · rw [hf]
    exact fun _ hp => absurd hp not_mem_nil
  · have hnone : f.byteAt? a = none := by
      rw [byteAt?, find?, hf]
      rfl
    rw [hnone]
    constructor
    · intro h
      cases h
    · rintro ⟨⟨w, hw, -⟩, -⟩
      exact absurd hw not_mem_nil

/-- A row that follows the rows in front of it starts a page or lies in the last one. -/
theorem pageNumbers_write_row {i : Nat} (hi : i < 4096) {row : Bytes} (hrow : row.length = 16)
    (hnumbers : f.pageNumbers = (List.range ((i + 15) / 16)).map Nat.toUInt32) :
    (f.write (16 * i).toUInt32 row 0).pageNumbers = (List.range ((i + 1 + 15) / 16)).map Nat.toUInt32 := by
  have hsize : payloadSize = 256 := rfl
  have haddress : (16 * i).toUInt32.toNat = 16 * i := UInt32.toNat_ofNat_of_lt' (by show _ < 4294967296; omega)
  have hpage : pageOf (16 * i).toUInt32 = (i / 16).toUInt32 := by
    apply UInt32.toNat_inj.1
    rw [toNat_pageOf, haddress, UInt32.toNat_ofNat_of_lt' (by show _ < 4294967296; omega)]
    omega
  have hpieces : pieces ⟨(16 * i).toUInt32, row⟩ = [⟨(16 * i).toUInt32, row⟩] := by
    rw [pieces_eq, if_pos]
    show row.length ≤ payloadSize - pageOffset (16 * i).toUInt32
    rw [pageOffset_eq, haddress]
    omega
  have hmem : (i / 16).toUInt32 ∈ (List.range ((i + 15) / 16)).map Nat.toUInt32 ↔ i % 16 ≠ 0 := by
    rw [mem_map]
    constructor
    · rintro ⟨n, hn, heq⟩
      have hn := mem_range.1 hn
      have hnat := congrArg UInt32.toNat heq
      rw [UInt32.toNat_ofNat_of_lt' (by show n < 4294967296; omega),
        UInt32.toNat_ofNat_of_lt' (by show i / 16 < 4294967296; omega)] at hnat
      omega
    · intro hmod
      exact ⟨i / 16, mem_range.2 (by omega), rfl⟩
  rw [write_eq f ⟨(16 * i).toUInt32, row⟩, hpieces, foldl_cons, foldl_nil,
    pageNumbers_writePage f ⟨(16 * i).toUInt32, row⟩, hpage, hnumbers]
  by_cases hmod : i % 16 = 0
  · rw [if_neg (by rw [hmem]; omega), show (i + 1 + 15) / 16 = (i + 15) / 16 + 1 by omega, range_succ,
      map_append, show (i + 15) / 16 = i / 16 by omega]
    rfl
  · rw [if_pos (hmem.2 hmod), show (i + 1 + 15) / 16 = (i + 15) / 16 by omega]

/-- Rows that follow each other fill the pages in order. -/
theorem pageNumbers_writeAll_rows {f : BlockFile} {b : Bytes} {i : Nat} (hrows : b.length % 16 = 0)
    (hlen : 16 * i + b.length ≤ 65536) (hnumbers : f.pageNumbers = (List.range ((i + 15) / 16)).map Nat.toUInt32) :
    (f.writeAll (rowJournal (byteRows (16 * i).toUInt32 b))).pageNumbers =
      (List.range ((i + b.length / 16 + 15) / 16)).map Nat.toUInt32 := by
  by_cases hb : b = []
  · subst hb
    rw [byteRows_nil]
    exact hnumbers
  · have hpos := length_pos_iff.2 hb
    have hnext : (16 * i).toUInt32 + 16 = (16 * (i + 1)).toUInt32 := (UInt32.ofNat_add ..).symm
    rw [byteRows_of_ne_nil _ hb, hnext]
    show ((f.write _ _ 0).writeAll (rowJournal (byteRows (16 * (i + 1)).toUInt32 (b.drop 16)))).pageNumbers = _
    rw [pageNumbers_writeAll_rows (by rw [length_drop]; omega) (by rw [length_drop]; omega)
      (pageNumbers_write_row (by omega) (Bytes.length_resize ..) hnumbers), length_drop]
    congr 3
    omega
termination_by b.length
decreasing_by rw [length_drop]; omega

end Uf2.BlockFile

namespace ObjectHeader

variable {t : Template} {f : BlockFile} {b : Bytes}

/-- The pages of the rows of an image are those of the image, which fills them. -/
theorem lt_of_touches_rows (hpages : b.length % 256 = 0) (hlen : b.length ≤ 65536) {a : UInt32}
    (h : Journal.Touches (rowJournal (byteRows 0 b)) a) : a.toNat < b.length := by
  obtain ⟨w, hw, x, hpage, hx⟩ := h
  obtain ⟨row, hrow, rfl⟩ := mem_map.1 hw
  have hzero : (0 : UInt32).toNat = 0 := rfl
  have hwhole : (wholeRows b).length = b.length := by
    rw [length_wholeRows]
    omega
  have hbounds := (bounds_of_mem_byteRows (by rw [hwhole, hzero]; omega) hrow).2
  have hrowLength := length_of_mem_byteRows hrow
  rw [hwhole, hzero] at hbounds
  have hxlt : x.toNat < b.length := by
    obtain rfl | hsome := hx
    · show row.1.toNat < _
      omega
    · have hstop : (⟨row.1, row.2⟩ : Write).stop = row.1.toNat + 16 := by
        show row.1.toNat + row.2.length = _
        rw [hrowLength]
      have := ((Write.isSome_byteAt? (by rw [hstop]; omega) x).1 hsome).2
      omega
  rw [pageOf_eq_iff] at hpage
  omega

/-- A file without pages, after the rows of an image were written into it, holds the image. -/
theorem holdsImage_writeAll (hf : f.pages = []) (hpages : b.length % 256 = 0) (hlen : b.length ≤ 65536) :
    HoldsImage (f.writeAll (rowJournal (byteRows 0 b))) b := by
  have hrecords : (f.writeAll (rowJournal (byteRows 0 b))).Records (rowJournal (byteRows 0 b)) := by
    refine (records_of_empty hf).foldl_write (fun w hw => ?_) 0
    obtain ⟨row, hrow, rfl⟩ := mem_map.1 hw
    show row.2.length ≤ 4294967296
    rw [length_of_mem_byteRows hrow]
    decide
  have hbyte := fun a => byteAt?_rowJournal_zero (b := b) (by omega) hlen a
  refine ⟨hrecords.sound, fun a => Option.ext fun x => ?_⟩
  rw [hrecords.reflects, Journal.Holds, hbyte]
  by_cases ha : a.toNat < b.length
  · have hsome : (rowJournal (byteRows 0 b)).byteAt? a = some b[a.toNat] := by
      rw [hbyte, getElem?_eq_getElem ha]
    rw [getElem?_eq_getElem ha, Option.getD_some, Option.some_inj]
    exact and_iff_right (Journal.touches_of_byteAt? hsome)
  · -- where a page has no byte of its own, it has an erased one; but there is no such page
    rw [getElem?_eq_none (by omega)]
    refine ⟨fun h => absurd (lt_of_touches_rows hpages hlen h.1) ha, fun h => ?_⟩
    cases h

/-! ## Two scans -/

/-- What a scan does depends on the placeholders at its offsets only. -/
theorem Replaced.unique {offsets offsets' : List Nat} {b₁ b₂ : Bytes} (h : Replaced t offsets b b₁)
    (h' : Replaced t offsets' b b₂) (hsame : ∀ i k, StandsAt b i k → (i ∈ offsets ↔ i ∈ offsets')) : b₁ = b₂ := by
  refine ext_getElem? fun j => ?_
  by_cases hcovered : ∃ i ∈ offsets, ∃ k, StandsAt b i k ∧ i ≤ j ∧ j < i + size
  · obtain ⟨i, hi, k, hstands, hle, hlt⟩ := hcovered
    obtain ⟨hd, hok, htake⟩ := h.header i hi k hstands
    obtain ⟨hd', hok', htake'⟩ := h'.header i ((hsame i k hstands).1 hi) k hstands
    obtain rfl := Except.ok.inj (hok.symm.trans hok')
    have hbyte : ∀ d : Bytes, d[j]? = ((d.drop i).take size)[j - i]? := by
      intro d
      rw [getElem?_take_of_lt (by omega), getElem?_drop, show i + (j - i) = j by omega]
    rw [hbyte, hbyte, htake, htake']
  · have houtside : ∀ i ∈ offsets, ∀ k, StandsAt b i k → j < i ∨ i + size ≤ j := by
      intro i hi k hstands
      by_contra hnot
      exact hcovered ⟨i, hi, k, hstands, by omega, by omega⟩
    rw [h.frame j houtside, h'.frame j fun i hi k hstands => houtside i ((hsame i k hstands).2 hi) k hstands]

/-- A scan succeeds where one of all its placeholders does. -/
theorem exists_visitAll_of_subset {offsets offsets' : List Nat} {b' : Bytes} (hsorted : offsets.Pairwise (· < ·))
    (hsorted' : offsets'.Pairwise (· < ·)) (hok : visitAll t b offsets' = .ok b')
    (hsubset : ∀ i ∈ offsets, ∀ k, StandsAt b i k → i ∈ offsets') : ∃ b'', visitAll t b offsets = .ok b'' := by
  refine exists_visitAll hsorted fun i hi k hstands => ?_
  obtain ⟨h, hheader, -⟩ := (replaced_of_visitAll hsorted' hok).header i (hsubset i hi k hstands) k hstands
  exact ⟨h, hheader⟩

/-- Of two scans, one of which visits more offsets, both fail or both give the same exactly if the one of fewer fails,
or there are no placeholders at the other offsets. -/
theorem scans_agree_iff {offsets offsets' : List Nat} (hsorted : offsets.Pairwise (· < ·))
    (hsorted' : offsets'.Pairwise (· < ·)) (hsubset : ∀ i ∈ offsets', i ∈ offsets) :
    (visitAll t b offsets).toOption = (visitAll t b offsets').toOption ↔
      (visitAll t b offsets').toOption = none ∨ ∀ i ∈ offsets, ∀ k, StandsAt b i k → i ∈ offsets' := by
  cases hfew : visitAll t b offsets' with
  | error e =>
    refine iff_of_true ?_ (.inl rfl)
    cases hmany : visitAll t b offsets with
    | error e' => rfl
    | ok b' =>
      obtain ⟨b'', hok⟩ := exists_visitAll_of_subset hsorted' hsorted hmany fun i hi _ _ => hsubset i hi
      exact nomatch hfew.symm.trans hok
  | ok b₂ =>
    have hreplaced := replaced_of_visitAll hsorted' hfew
    constructor
    · intro heq
      cases hmany : visitAll t b offsets with
      | error e => exact nomatch hmany ▸ heq
      | ok b₁ =>
        rw [hmany] at heq
        obtain rfl : b₁ = b₂ := Option.some.inj heq
        refine .inr fun i hi k hstands => (hreplaced.byte_five hstands).1 ?_
        exact ((replaced_of_visitAll hsorted hmany).byte_five hstands).2 hi
    · rintro (hnone | hall)
      · exact nomatch hnone
      · obtain ⟨b₁, hmany⟩ := exists_visitAll_of_subset hsorted hsorted' hfew hall
        rw [hmany, (replaced_of_visitAll hsorted hmany).unique hreplaced fun i k hstands =>
          ⟨fun hi => hall i hi k hstands, hsubset i⟩]

theorem Follows.toOption_eq_none {s : Except Failure Bytes} {files : Except Failure BlockFile} (h : Follows files s) :
    s.toOption = none ↔ ∃ e, files = .error e := by
  cases s with
  | error e => exact iff_of_true rfl ⟨e, h⟩
  | ok c =>
    obtain ⟨g, rfl, -⟩ := h
    exact iff_of_false (fun h => nomatch h) (fun ⟨_, h⟩ => nomatch h)

/-- Whether the placeholders in lines and in a block file were treated alike: both failed, or both succeeded and leave
the same bytes. -/
inductive Agree : Except Failure (List String) → Except Failure BlockFile → Prop
  | fail (e e' : Failure) : Agree (.error e) (.error e')
  | same (lines : List String) (g : BlockFile) (hbytes : ∀ a, (contents lines).byteAt? a = g.byteAt? a) :
      Agree (.ok lines) (.ok g)

/-- Lines and pages agree where the images do that they hold. -/
theorem agree_iff {r s : Except Failure Bytes} {files : Except Failure BlockFile} (hfollows : Follows files s)
    (hr : ∀ c, r = .ok c → c.length % 16 = 0 ∧ c.length ≤ 65536)
    (hs : ∀ c, s = .ok c → c.length ≤ 65536) :
    Agree (r.map (imageLines 0)) files ↔ r.toOption = s.toOption := by
  cases s with
  | error e =>
    obtain rfl : files = .error e := hfollows
    cases r with
    | error e' => exact iff_of_true (.fail e' e) rfl
    | ok c => exact iff_of_false (fun h => nomatch h) (fun h => nomatch h)
  | ok c =>
    obtain ⟨g, rfl, hg⟩ := hfollows
    cases r with
    | error e => exact iff_of_false (fun h => nomatch h) (fun h => nomatch h)
    | ok c' =>
      obtain ⟨hrows, hlen⟩ := hr c' rfl
      have hcontents := byteAt?_contents_imageLines hrows hlen
      constructor
      · intro hagree
        cases hagree with
        | same _ _ hbytes =>
          refine congrArg some (ext_getElem? fun i => ?_)
          by_cases hi : i < 65536
          · have hbyte := (hcontents i.toUInt32).symm.trans ((hbytes _).trans (hg.byteAt? _))
            rwa [UInt32.toNat_ofNat_of_lt' (by show i < 4294967296; omega)] at hbyte
          · rw [getElem?_eq_none (by omega), getElem?_eq_none (by have := hs c rfl; omega)]
      · intro heq
        obtain rfl : c' = c := Option.some.inj heq
        exact .same _ g fun a => (hcontents a).trans (hg.byteAt? a).symm

/-- The lines of an image put the image into a file without pages. -/
theorem writeHex_imageLines (hf : f.pages = []) (hpages : b.length % 256 = 0) (hlen : b.length ≤ 65536) :
    ∃ g, f.writeHex (imageLines 0 b) = (g, none) ∧ HoldsImage g b ∧
      g.pageNumbers = (List.range (b.length / 256)).map Nat.toUInt32 := by
  refine ⟨f.writeAll (rowJournal (byteRows 0 b)), ?_, holdsImage_writeAll hf hpages hlen, ?_⟩
  · unfold imageLines
    rw [writeHex_line fun e he => ?_, journal_imageEntries (by omega) hlen]
    obtain ⟨row, -, rfl⟩ := mem_map.1 he
    exact (by decide : dataType ≠ segmentType)
  · have hnone : f.pageNumbers = (List.range ((0 + 15) / 16)).map Nat.toUInt32 := by
      rw [pageNumbers, hf]
      rfl
    have hrows := pageNumbers_writeAll_rows (b := b) (by omega) (by omega) hnone
    rwa [show (0 + b.length / 16 + 15) / 16 = b.length / 256 by omega] at hrows

/-- A file that holds an image is treated as the lines of the image are where nothing else can be seen in these. -/
theorem agree_of_holdsImage (t : Template) (hpages : b.length % 256 = 0) (hlen : b.length ≤ 65536) {g : BlockFile}
    (hg : HoldsImage g b) (hnumbers : g.pageNumbers = (List.range (b.length / 256)).map Nat.toUInt32) :
    Agree (replaceInLines t (imageLines 0 b)) (replaceInPages t g) ↔
      (∃ e, replaceInPages t g = .error e) ∨ ∀ i k, StandsAt b i k → i % 16 ≤ 12 → i % 4 = 0 := by
  have hsize : size = 6 := rfl
  have hfollows := follows_replaceInPages (t := t) hg (by omega) (show b.length = 256 * (b.length / 256) by omega)
    hnumbers
  have hrow : ∀ i, i ∈ rowOffsets (b.length / 16) ↔ i < b.length ∧ i % 16 ≤ 12 := by
    intro i
    rw [mem_rowOffsets]
    omega
  have hword : ∀ i, i ∈ wordOffsets (b.length / 256) ↔ i < b.length ∧ i % 4 = 0 := by
    intro i
    rw [mem_wordOffsets]
    omega
  rw [replaceInLines_eq t 0 (show b.length = 16 * (b.length / 16) by omega), agree_iff hfollows
    (fun c hc => by rw [length_of_visitAll hc]; omega) (fun c hc => by rw [length_of_visitAll hc]; omega),
    scans_agree_iff (pairwise_rowOffsets _) (pairwise_wordOffsets _) fun i hi => (hrow i).2 (by
      have := (hword i).1 hi
      omega)]
  refine or_congr hfollows.toOption_eq_none ⟨fun hall i k hstands hmod => ?_, fun haligned i hi k hstands => ?_⟩
  · have hin := hstands.length_le
    exact ((hword i).1 (hall i ((hrow i).2 ⟨by omega, hmod⟩) k hstands)).2
  · obtain ⟨hlt, hmod⟩ := (hrow i).1 hi
    exact (hword i).2 ⟨hlt, haligned i k hstands hmod⟩

/-- **Lines and pages.** The lines of an image put it into a block file. From there on its placeholders are replaced
alike in the lines and in the pages exactly if those in the pages cannot be replaced, or if all are aligned whose marker
lies in one line. -/
theorem replace_agree_iff (t : Template) {b : Bytes} (hpages : b.length % 256 = 0) (hlen : b.length ≤ 65536)
    {f : BlockFile} (hf : f.pages = []) :
    ∃ g, f.writeHex (imageLines 0 b) = (g, none) ∧ (∀ a, (contents (imageLines 0 b)).byteAt? a = g.byteAt? a) ∧
      (Agree (replaceInLines t (imageLines 0 b)) (replaceInPages t g) ↔
        (∃ e, replaceInPages t g = .error e) ∨ ∀ i k, StandsAt b i k → i % 16 ≤ 12 → i % 4 = 0) := by
  obtain ⟨g, hwritten, hg, hnumbers⟩ := writeHex_imageLines hf hpages hlen
  refine ⟨g, hwritten, fun a => ?_, agree_of_holdsImage t hpages hlen hg hnumbers⟩
  rw [hg.byteAt?, byteAt?_contents_imageLines (by omega) hlen]

/-- An image of one page with a placeholder at an offset, behind zeros. -/
def onePage (offset : Nat) (k : Kind) : Bytes :=
  Bytes.resize (List.replicate offset 0 ++ k.placeholder ++ [0x61, 0x62]) 256 0

theorem length_onePage (offset : Nat) (k : Kind) : (onePage offset k).length = 256 := Bytes.length_resize ..

/-- An aligned string whose placeholder goes on in the second line. -/
theorem replace_agree_onePage :
    (onePage 12 .string).length % 256 = 0 ∧ (onePage 12 .string).length ≤ 65536 ∧ (new 0).pages = [] ∧
    ∃ g, (new 0).writeHex (imageLines 0 (onePage 12 .string)) = (g, none) ∧
      Agree (replaceInLines (tables (Template.pagedTarget 0) 0x2001 0x3001) (imageLines 0 (onePage 12 .string)))
        (replaceInPages (tables (Template.pagedTarget 0) 0x2001 0x3001) g) := by
  have haligned : ∀ i k, StandsAt (onePage 12 .string) i k → i % 16 ≤ 12 → i % 4 = 0 := by
    have hall : ∀ i < 256, ∀ k, StandsAt (onePage 12 .string) i k → i % 4 = 0 := by decide +kernel
    intro i k hstands _
    have hle := hstands.length_le
    have hsize : size = 6 := rfl
    rw [length_onePage] at hle
    exact hall i (by omega) k hstands
  obtain ⟨g, hwritten, -, hagree⟩ := replace_agree_iff (tables (Template.pagedTarget 0) 0x2001 0x3001)
    (b := onePage 12 .string) (f := new 0) (by rw [length_onePage]) (by rw [length_onePage]; decide) rfl
  exact ⟨by rw [length_onePage], by rw [length_onePage]; decide, rfl, g, hwritten, hagree.2 (.inr haligned)⟩

/-- A buffer that is not aligned is seen in the lines and not in the pages. -/
theorem not_agree_onePage :
    ∃ g, (new 0).writeHex (imageLines 0 (onePage 2 .buffer)) = (g, none) ∧
      ¬ Agree (replaceInLines (tables (Template.pagedTarget 0) 0x2001 0x3001) (imageLines 0 (onePage 2 .buffer)))
        (replaceInPages (tables (Template.pagedTarget 0) 0x2001 0x3001) g) := by
  have hpages : (onePage 2 .buffer).length % 256 = 0 := by rw [length_onePage]
  have hlen : (onePage 2 .buffer).length ≤ 65536 := by rw [length_onePage]; decide
  obtain ⟨g, hwritten, hg, hnumbers⟩ := writeHex_imageLines (f := new 0) rfl hpages hlen
  refine ⟨g, hwritten, fun hagree => ?_⟩
  have hstands : StandsAt (onePage 2 .buffer) 2 .buffer := by decide +kernel
  obtain ⟨e, herror⟩ | haligned := (agree_of_holdsImage _ hpages hlen hg hnumbers).1 hagree
  · -- no placeholder is aligned, so nothing fails in the pages
    rw [length_onePage] at hnumbers
    have hfollows := follows_replaceInPages (t := tables (Template.pagedTarget 0) 0x2001 0x3001) hg
      (by decide : 256 * 1 ≤ 65536) (length_onePage ..) hnumbers
    have hall : ∀ i ∈ wordOffsets 1, ∀ k, ¬ StandsAt (onePage 2 .buffer) i k := by
      have hall : ∀ i < 256, i % 4 = 0 → ∀ k, ¬ StandsAt (onePage 2 .buffer) i k := by decide +kernel
      intro i hi k
      obtain ⟨hlt, hmod⟩ := mem_wordOffsets.1 hi
      exact hall i hlt hmod k
    rw [visitAll_of_not_standsAt hall] at hfollows
    obtain ⟨g', hok, -⟩ := hfollows
    exact nomatch herror.symm.trans hok
  · exact absurd (haligned 2 .buffer hstands (by decide)) (by decide)

end ObjectHeader
end Firmware
