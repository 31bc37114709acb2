import Firmware.Proofs.Uf2.BlockReads
import Mathlib.Data.List.Chain

/-!
# Flattening block files

Blocks are laid out one behind the other, with zeros between them. Blocks of pages that go up in small steps add up to
one image (`Flat.Shows.foldl_add`), and the pages that end below an address are the first ones. So the image of a file
has the bytes that were written last, erased ones in the rest of the pages that the writes need, and zeros elsewhere
(`flatten_writes`).
-/

open List

namespace Firmware

open Uf2 BlockFile

namespace Uf2

variable {g : UInt32 → UInt8} {s : Flat} {start p : UInt32} {b : Block} {bs : List Block} {ps : List UInt32}

/-! ## Rows of bytes -/

/-- The bytes that stand at the addresses from one on. -/
def cells (g : UInt32 → UInt8) (a : UInt32) (n : Nat) : Bytes := (List.range n).map fun i => g (a + i.toUInt32)

section

variable (g : UInt32 → UInt8) (a : UInt32)

theorem length_cells (n : Nat) : (cells g a n).length = n := by simp [cells]

theorem getElem?_cells {i n : Nat} (hi : i < n) : (cells g a n)[i]? = some (g (a + i.toUInt32)) := by
  rw [cells, getElem?_map, getElem?_range hi]
  rfl

theorem cells_add (n m : Nat) : cells g a (n + m) = cells g a n ++ cells g (a + n.toUInt32) m := by
  unfold cells
  rw [range_add, map_append, map_map]
  refine congrArg _ (map_congr_left fun i _ => ?_)
  show g (a + (n + i).toUInt32) = _
  rw [address_add]

end

/-! ## Laying out blocks -/

/-- Whether a block has the bytes of a page. -/
structure Has (g : UInt32 → UInt8) (b : Block) (p : UInt32) : Prop where
  address : b.address.toNat = 256 * p.toNat
  payload : b.payload.toNat = 256
  data : b.data = cells g b.address 256

/-- Whether a page comes behind another one, with no more between them than is filled up. -/
def NextPage (p q : UInt32) : Prop := p < q ∧ 256 * q.toNat ≤ 256 * (p.toNat + 1) + 0x100000

instance (p q : UInt32) : Decidable (NextPage p q) := inferInstanceAs (Decidable (_ ∧ _))

/-- Whether zeros stand between a page and the next one. -/
structure Follows (g : UInt32 → UInt8) (p q : UInt32) : Prop where
  next : NextPage p q
  zeros : ∀ a, p < pageOf a → pageOf a < q → g a = 0

/-- Whether an image under construction has the bytes from an address on. -/
structure Flat.Shows (s : Flat) (g : UInt32 → UInt8) (start : UInt32) (n : Nat) : Prop where
  start_eq : s.start = start
  stop : s.stop = some ((start.toNat + n : Nat) : Int)
  data : s.pieces.reverse.flatten = cells g start n

theorem Flat.Shows.add {n k : Nat} (hs : s.Shows g start n) (hb : Has g b p)
    (haddress : 256 * p.toNat = start.toNat + n + k) (haligned : k % 4 = 0) (hnear : k ≤ 0x100000)
    (hzeros : ∀ a : UInt32, start.toNat + n ≤ a.toNat → a.toNat < 256 * p.toNat → g a = 0) :
    (s.add b).Shows g start (n + k + 256) := by
  have hlt := b.address.toNat_lt
  have hb' := hb.address
  have hat : ∀ i ≤ n + k, (start + i.toUInt32).toNat = start.toNat + i := by
    intro i hi
    rw [UInt32.toNat_add, UInt32.toNat_ofNat_of_lt' (by show i < 4294967296; omega)]
    omega
  have hgap : (b.address.toNat : Int) - (start.toNat + n : Nat) = k := by omega
  have hskip : (decide ((k : Int) < 0) || (k : Int) % 4 != 0 || decide (largestGap < k)) = false := by
    simp only [Bool.or_eq_false_iff, decide_eq_false_iff_not, bne_eq_false_iff_eq]
    unfold largestGap
    omega
  -- zeros stand in the gap, and the block behind it
  have hstart : b.address = start + (n + k).toUInt32 := UInt32.toNat_inj.1 (by rw [hat _ (Nat.le_refl _)]; omega)
  have hfill : cells g (start + n.toUInt32) k = List.replicate k 0 := by
    rw [eq_replicate_iff, length_cells]
    refine ⟨rfl, fun x hx => ?_⟩
    obtain ⟨i, hi, rfl⟩ := mem_map.1 hx
    rw [mem_range] at hi
    refine hzeros _ ?_ ?_ <;> rw [← address_add, hat _ (by omega)] <;> omega
  unfold Flat.add
  simp only [hs.stop, hgap, hskip, Bool.false_eq_true, if_false]
  refine ⟨hs.start_eq, ?_, ?_⟩
  · rw [hb.payload]
    exact congrArg some (by omega)
  · rw [cells_add, cells_add, ← hs.data, hfill, ← hstart, ← hb.data]
    simp

/-- The first block starts the image. -/
theorem Flat.shows_add_empty (hb : Has g b p) : (Flat.add {} b).Shows g b.address 256 := by
  have hempty : Flat.Shows { start := b.address, stop := some (b.address.toNat : Int) } g b.address 0 := ⟨rfl, rfl, rfl⟩
  refine hempty.add hb (k := 0) hb.address.symm rfl (by decide) fun a hle hlt => absurd hlt ?_
  rw [← hb.address]
  exact Nat.not_lt.2 hle

/-- **Laying out blocks.** Blocks of pages that follow each other add up to one image. -/
theorem Flat.Shows.foldl_add (hs : s.Shows g start (256 * (p.toNat + 1) - start.toNat))
    (hstart : start.toNat ≤ 256 * p.toNat)
    (hbs : List.Forall₂ (Has g) bs ps) (hup : (p :: ps).IsChain (Follows g)) :
    start.toNat ≤ 256 * (ps.getLastD p).toNat ∧
      (bs.foldl Flat.add s).Shows g start (256 * ((ps.getLastD p).toNat + 1) - start.toNat) := by
  induction hbs generalizing s p with
  | nil => exact ⟨hstart, hs⟩
  | @cons b q bs ps hb hbs ih =>
    obtain ⟨⟨⟨hlt, hnear⟩, hzeros⟩, hup⟩ := isChain_cons_cons.1 hup
    rw [UInt32.lt_iff_toNat_lt] at hlt
    obtain ⟨m, hm⟩ : ∃ m, q.toNat = p.toNat + 1 + m := ⟨q.toNat - (p.toNat + 1), by omega⟩
    have hstep := hs.add hb (k := 256 * m) (by omega) (by omega) (by omega) fun a ha ha' => by
      apply hzeros a <;> rw [UInt32.lt_iff_toNat_lt, toNat_pageOf] <;> omega
    rw [show 256 * (p.toNat + 1) - start.toNat + 256 * m + 256 = 256 * (q.toNat + 1) - start.toNat by omega] at hstep
    rw [getLastD_cons, foldl_cons]
    exact ih hstep (by omega) hup

/-- Whether a page ends at or below an address, where zero stands for no bound. -/
def EndsBelow (bound page : UInt32) : Prop := bound = 0 ∨ 256 * (page.toNat + 1) ≤ bound.toNat

instance (bound : UInt32) : DecidablePred (EndsBelow bound) := fun _ => inferInstanceAs (Decidable (_ ∨ _))

/-- A block is taken into an image if its page ends below the bound. -/
theorem within_eq (hb : Has g b p) (hp : p < topPage) (bound : UInt32) :
    (bound == 0 || decide (b.address + payloadSize.toUInt32 ≤ bound)) = decide (EndsBelow bound p) := by
  have hlt := UInt32.lt_iff_toNat_lt.1 hp
  have hvalue : topPage.toNat = 0xFFFFFF := rfl
  have hstop : (b.address + payloadSize.toUInt32).toNat = 256 * (p.toNat + 1) := by
    rw [UInt32.toNat_add, hb.address]
    show (256 * p.toNat + 256) % 2 ^ 32 = _
    omega
  rw [Bool.eq_iff_iff, Bool.or_eq_true, beq_iff_eq, decide_eq_true_iff, decide_eq_true_iff, UInt32.le_iff_toNat_le, hstop]
  rfl

/-- Of pages that go up, those that end below an address are the first ones. -/
theorem exists_take (h : List.Forall₂ (Has g) bs ps) (hup : ps.Pairwise (· < ·)) (htop : ∀ p ∈ ps, p < topPage)
    (bound : UInt32) :
    ∃ n, bs.takeWhile (fun b => bound == 0 || decide (b.address + payloadSize.toUInt32 ≤ bound)) = bs.take n ∧
      ps.filter (EndsBelow bound) = ps.take n := by
  induction h with
  | nil => exact ⟨0, rfl, rfl⟩
  | @cons b p bs ps hb _ ih =>
    obtain ⟨hp, hup⟩ := pairwise_cons.1 hup
    obtain ⟨hfirst, htop⟩ := forall_mem_cons.1 htop
    obtain ⟨n, hbs, hps⟩ := ih hup htop
    rw [takeWhile_cons, filter_cons, within_eq hb hfirst]
    by_cases hends : EndsBelow bound p
    · refine ⟨n + 1, ?_, ?_⟩
      · rw [if_pos (decide_eq_true hends), hbs, take_succ_cons]
      · rw [if_pos (decide_eq_true hends), hps, take_succ_cons]
    · refine ⟨0, if_neg (by simpa using hends), ?_⟩
      rw [if_neg (by simpa using hends), take_zero, filter_eq_nil_iff]
      intro q hq hq'
      -- what ends below the bound has all in front of it below the bound
      have hlt := UInt32.lt_iff_toNat_lt.1 (hp q hq)
      exact hends ((of_decide_eq_true hq').imp_right fun hle => by omega)

/-! ## Files -/

/-- Pages are made in the order of the writes, whatever else a file has. -/
theorem pageNumbers_writePages_congr {f g : BlockFile} (h : f.pageNumbers = g.pageNumbers) (cs : List FlaggedWrite) :
    (f.writePages cs).pageNumbers = (g.writePages cs).pageNumbers := by
  induction cs generalizing f g with
  | nil => exact h
  | cons c rest ih =>
    refine ih ?_
    rw [pageNumbers_writePage f c.toWrite, pageNumbers_writePage g c.toWrite, h]

/-- The blocks of a file have the bytes of its pages. -/
theorem has_parse_serialize {f : BlockFile} (h : f.Sound) (hg : ∀ a, (f.byteAt? a).getD 0 = g a) :
    List.Forall₂ (Has g) (parse f.serialize) f.pageNumbers := by
  have hnumbers : f.pageNumbers = f.finalPages.map (·.number) := by
    unfold finalPages pageNumbers
    split
    · rfl
    · rw [map_map]
      rfl
  rw [hnumbers, parse_serialize h, List.forall₂_iff_get]
  refine ⟨by simp, fun i hi hi' => ?_⟩
  simp only [get_eq_getElem, getElem_mapIdx, getElem_map]
  have hi : i < f.finalPages.length := by simpa using hi
  obtain ⟨p, hp, hnumber, hdata⟩ := exists_of_mem_finalPages (getElem_mem hi)
  have hlength := h.size p hp
  rw [← hnumber]
  refine ⟨?_, rfl, ext_getElem? fun k => ?_⟩
  · show (f.finalPages[i].number <<< 8).toNat = _
    rw [← hnumber, h.toNat_pageStart hp, Nat.mul_comm]
  show f.finalPages[i].data[k]? = (cells g (f.finalPages[i].number <<< 8) 256)[k]?
  rw [← hnumber, ← hdata]
  by_cases hk : k < 256
  · have hlt : k < p.data.length := by rw [hlength]; exact hk
    rw [getElem?_cells _ _ hk, ← hg, h.byteAt?_page hp hk, getElem?_eq_getElem hlt]
    rfl
  · rw [getElem?_eq_none (by rw [hlength]; exact Nat.le_of_not_lt hk), getElem?_eq_none (by rw [length_cells]; omega)]

section Written

variable {ws : List FlaggedWrite} (hup : (touchedPages ws).IsChain NextPage) (htop : ∀ p ∈ touchedPages ws, p < topPage)

include hup in
theorem pairwise_touchedPages : (touchedPages ws).Pairwise (· < ·) := isChain_iff_pairwise.1 (hup.imp fun _ _ h => h.1)

include hup in
/-- Nothing was written between a page and the next one. -/
theorem follows_touchedPages : (touchedPages ws).IsChain (Follows (flashByte ws)) := by
  have hpairs := pairwise_touchedPages hup
  rw [isChain_iff_forall_rel_of_append_cons_cons] at hup ⊢
  intro p q front back hsplit
  refine ⟨hup hsplit, fun a hlow hhigh => if_neg fun hmem => ?_⟩
  rw [hsplit, pairwise_append, pairwise_cons, pairwise_cons] at hpairs
  obtain ⟨-, ⟨-, hback, -⟩, hfront⟩ := hpairs
  rw [hsplit, mem_append, mem_cons, mem_cons] at hmem
  obtain hmem | hmem | hmem | hmem := hmem
  · exact UInt32.lt_asymm (hfront _ hmem p mem_cons_self) hlow
  · exact UInt32.lt_irrefl p (hmem ▸ hlow)
  · exact UInt32.lt_irrefl q (hmem ▸ hhigh)
  · exact UInt32.lt_asymm (hback _ hmem) hhigh

include htop in
/-- Writes that reach around the end of flash need its last page. -/
theorem stop_le_of_touchedPages {w : FlaggedWrite} (hw : w ∈ ws) : w.stop ≤ 2 ^ 32 := by
  by_contra hlong
  have haddress := w.address.toNat_lt
  have hmem : topPage ∈ w.pages := by
    unfold Write.pages
    exact mem_map.2 ⟨0xFFFFFF, mem_range'_1.2 (by omega), rfl⟩
  have hlt := htop topPage (mem_eraseDups.2 (mem_flatMap.2 ⟨w, hw, hmem⟩))
  exact absurd hlt (by decide)

include hup htop

/-- **Flattening.** Let the pages that writes need come up in rising order, none of them the last one of the address space
and no more than 1 MB between one and the next. If none of them ends below the bound, nothing is read. Otherwise the image
goes from the first to the last one that does, and has what flash has: the bytes that were written last, erased ones in
the rest of the pages and zeros between them. -/
theorem flatten_writes (family : UInt32) (fileName : Bytes) (bound : UInt32) :
    ((touchedPages ws).filter (EndsBelow bound) = [] →
      flatten ((named family fileName).writeFlagged ws).serialize bound = none) ∧
    ∀ first rest, (touchedPages ws).filter (EndsBelow bound) = first :: rest →
      ∃ data, flatten ((named family fileName).writeFlagged ws).serialize bound = some (data, first <<< 8) ∧
        data.length = 256 * ((rest.getLastD first).toNat + 1 - first.toNat) ∧
        ∀ i < data.length, data[i]? = some (flashByte ws (first <<< 8 + i.toUInt32)) := by
  have hfit := fun w hw => stop_le_of_touchedPages htop (w := w) hw
  have hsound := ((records_named family fileName).writeFlagged hfit).sound
  have hhas := has_parse_serialize hsound (getD_byteAt?_named hfit family fileName)
  have hpages : ((named family fileName).writeFlagged ws).pageNumbers = touchedPages ws := by
    rw [← pageNumbers_writeFlagged hfit family, writeFlagged_eq, writeFlagged_eq]
    exact pageNumbers_writePages_congr (f := named family fileName) (g := new family) rfl _
  rw [hpages] at hhas
  obtain ⟨n, hbs, hps⟩ := exists_take hhas (pairwise_touchedPages hup) htop bound
  have hchain := (follows_touchedPages hup).take n
  have htake := List.forall₂_take n hhas
  rw [← hps] at hchain htake
  unfold flatten
  dsimp only
  rw [hbs]
  generalize (parse ((named family fileName).writeFlagged ws).serialize).take n = blocks at htake
  constructor
  · intro hnone
    rw [hnone, List.forall₂_nil_right_iff] at htake
    rw [htake]
    rfl
  · intro first rest hfirst
    rw [hfirst] at htake hchain
    obtain ⟨b, bs, hb, hrest, rfl⟩ := List.forall₂_cons_right_iff.1 htake
    have haddress := hb.address
    have hstart : b.address = first <<< 8 := by
      have hlt := b.address.toNat_lt
      apply UInt32.toNat_inj.1
      rw [UInt32.toNat_shiftLeft, haddress]
      show _ = first.toNat <<< 8 % 2 ^ 32
      rw [Nat.shiftLeft_eq]
      omega
    obtain ⟨hle, hshows⟩ := Flat.Shows.foldl_add (by
      rw [haddress, show 256 * (first.toNat + 1) - 256 * first.toNat = 256 by omega]
      exact Flat.shows_add_empty hb) (Nat.le_of_eq haddress) hrest hchain
    rw [List.foldl_cons, hshows.data, hshows.start_eq, ← hstart]
    rw [haddress] at hle ⊢
    refine ⟨_, if_neg ?_, ?_, fun i hi => ?_⟩
    · rw [List.isEmpty_iff_length_eq_zero, length_cells]
      omega
    · rw [length_cells]
      omega
    · rw [length_cells] at hi
      exact getElem?_cells _ _ hi

end Written

/-- An image across a page that is missing, and a bound below all pages. -/
theorem flatten_writes_spaced :
    (∃ data, flatten ((named 0 []).writeFlagged spacedWrites).serialize 0 = some (data, 0x100) ∧ data.length = 0x400 ∧
      data[0xFD]? = some 0xFF ∧ data[0xFE]? = some 1 ∧ data[0x2FF]? = some 0 ∧ data[0x300]? = some 5) ∧
    flatten ((named 0 []).writeFlagged spacedWrites).serialize 0x1FF = none := by
  have hpages : touchedPages spacedWrites = [1, 2, 4] := by decide
  have hup : (touchedPages spacedWrites).IsChain NextPage := by rw [hpages]; decide
  have htop : ∀ p ∈ touchedPages spacedWrites, p < topPage := by
    rw [hpages]
    exact forall_mem_cons.2 ⟨by decide, forall_mem_cons.2 ⟨by decide, forall_mem_singleton.2 (by decide)⟩⟩
  obtain ⟨-, hall⟩ := flatten_writes hup htop 0 [] 0
  obtain ⟨data, hflatten, hlength, hbytes⟩ := hall 1 [2, 4] (by decide)
  refine ⟨⟨data, hflatten, hlength, ?_⟩, (flatten_writes hup htop 0 [] 0x1FF).1 (by decide)⟩
  rw [hlength] at hbytes
  rw [hbytes _ (by decide), hbytes _ (by decide), hbytes _ (by decide), hbytes _ (by decide)]
  decide

end Uf2
end Firmware
