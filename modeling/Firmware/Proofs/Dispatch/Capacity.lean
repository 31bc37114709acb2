import Firmware.Proofs.Dispatch.Search
import Mathlib.Algebra.BigOperators.Group.Finset.Basic
import Mathlib.Data.Finset.Prod
import Mathlib.Tactic.LinearCombination

/-!
# How many ids always have a hash

A prime fails where an id finds its three slots taken. The ids in these slots hash to a place close by, so a
failure needs four ids in five buckets that follow each other (`Blocked.exists_crowd`).

In the largest table two ids come that close for one prime at most (`eq_of_isNear`). Their products with the
multiplier differ by little, and that depends on the difference of the ids alone: the differences for which it
happens are points of a lattice in a small box, some ten for each prime, and no difference serves two primes.
So the crowds of different primes have no pair in common. A crowd has six pairs, fifty primes need three
hundred, and 24 ids have fewer (`compute_of_blocked`).

With more ids all primes can be made to fail at all sizes (`compute_crowds`).
-/

namespace Firmware
namespace MemberHash

open List

variable {ids : List Int} {bits : Nat} {prime : UInt32} {multiplier : UInt32} {slots : Array UInt16}

/-! ## Where placing fails -/

theorem freeProbe_eq_none_iff {k : Nat} : freeProbe slots k = none ↔ ∀ l < probes, slots[k + l]? ≠ some 0 := by
  simp only [freeProbe, find?_eq_none, mem_range, beq_iff_eq, ne_eq]

/-- Placing fails at an id that finds no slot free once the ids in front of it are placed. -/
theorem place_eq_none_iff {ids : List UInt16} {n : Nat} : place multiplier ids slots n = none ↔
    ∃ before id after slots' n', ids = before ++ id :: after ∧
      place multiplier before slots n = some (slots', n') ∧ freeProbe slots' (bucket multiplier id.toUInt32) = none := by
  induction ids generalizing slots n with
  | nil => simp [place]
  | cons id rest ih =>
    rw [place]
    cases hfree : freeProbe slots (bucket multiplier id.toUInt32) with
    | none => exact iff_of_true rfl ⟨[], id, rest, slots, n, rfl, rfl, hfree⟩
    | some l =>
      dsimp only
      rw [ih]
      constructor
      · rintro ⟨before, id', after, slots', n', rfl, hbefore, hnone⟩
        refine ⟨id :: before, id', after, slots', n', rfl, ?_, hnone⟩
        rw [place, hfree]
        exact hbefore
      · rintro ⟨before, id', after, slots', n', heq, hbefore, hnone⟩
        cases before with
        | nil =>
          -- the first id has a free slot
          obtain ⟨rfl, rfl⟩ := cons.inj heq
          obtain ⟨rfl, -⟩ := Prod.mk.inj (Option.some.inj hbefore)
          exact nomatch hfree.symm.trans hnone
        | cons first before =>
          obtain ⟨rfl, rfl⟩ := cons.inj heq
          rw [place, hfree] at hbefore
          exact ⟨before, id', after, slots', n', rfl, hbefore, hnone⟩

/-- Whether a prime fails in a table of `2 ^ bits` hashed slots: all slots of an id are taken by ids in front
of it. -/
def Blocked (ids : List Int) (bits : Nat) (prime : UInt32) : Prop :=
  ∃ before id after slots collisions, stored ids = before ++ id :: after ∧
    place (multiplierOf prime (32 - bits)) before (Array.replicate (2 ^ bits + probes + 1) 0) 0 =
      some (slots, collisions) ∧
    ∀ l < probes, ∃ taken ∈ before, slots[bucket (multiplierOf prime (32 - bits)) id.toUInt32 + l]? = some taken

section Blocked

variable {before after : List UInt16} {id : UInt16} {collisions : Nat}

/-- The ids in front of one are placed by a run that gets so far. -/
theorem placed_before (hids : Storable ids) (heq : stored ids = before ++ id :: after)
    (hplace : place multiplier before (Array.replicate (2 ^ bits + probes + 1) 0) 0 = some (slots, collisions)) :
    Placed multiplier before slots ∧ slots.size = 2 ^ bits + probes + 1 ∧ 0 ∉ before ∧ before.Nodup ∧ id ∉ before := by
  have hzero := zero_notMem_stored hids
  have hnodup := nodup_stored hids
  rw [heq, mem_append, not_or] at hzero
  rw [heq, nodup_append] at hnodup
  obtain ⟨hplaced, hsize⟩ := (placed_nil _ _).run (by simpa using hzero.1) (by simpa using hnodup.1) hplace
  rw [Array.size_replicate] at hsize
  exact ⟨hplaced, hsize, hzero.1, hnodup.1, fun hmem => hnodup.2.2 id hmem id mem_cons_self rfl⟩

theorem placement_eq_none_iff (hids : Storable ids) (hbits : bits ∈ sizes) :
    placement ids bits prime = none ↔ Blocked ids bits prime := by
  rw [placement, place_eq_none_iff]
  constructor
  · rintro ⟨before, id, after, slots, collisions, heq, hplace, hnone⟩
    obtain ⟨hplaced, hsize, -⟩ := placed_before hids heq hplace
    refine ⟨before, id, after, slots, collisions, heq, hplace, fun l hl => ?_⟩
    have hlt := bucket_add_lt prime hbits id.toUInt32 hl
    rw [← hsize] at hlt
    have hget := Array.getElem?_eq_getElem hlt
    have hne := freeProbe_eq_none_iff.1 hnone l hl
    rw [hget] at hne
    refine ⟨_, (hplaced.free _ _ hget).resolve_left ?_, hget⟩
    intro h0
    rw [h0] at hne
    exact hne rfl
  · rintro ⟨before, id, after, slots, collisions, heq, hplace, htaken⟩
    obtain ⟨-, -, hzero, -⟩ := placed_before hids heq hplace
    refine ⟨before, id, after, slots, collisions, heq, hplace, freeProbe_eq_none_iff.2 fun l hl => ?_⟩
    obtain ⟨taken, hmem, hget⟩ := htaken l hl
    rw [hget]
    rintro ⟨⟩
    exact hzero hmem

end Blocked

/-- Four ids of the list that hash to five buckets in a row. -/
def Crowd (ids : List Int) (multiplier : UInt32) (four : List UInt16) : Prop :=
  four.Nodup ∧ four.length = 4 ∧ (∀ a ∈ four, a ∈ stored ids) ∧
    ∀ a ∈ four, ∀ b ∈ four, bucket multiplier a.toUInt32 ≤ bucket multiplier b.toUInt32 + 4

/-- An id whose slots are taken and the ids that took them. -/
theorem Blocked.exists_crowd (hids : Storable ids) (h : Blocked ids bits prime) :
    ∃ four, Crowd ids (multiplierOf prime (32 - bits)) four := by
  obtain ⟨before, id, after, slots, collisions, heq, hplace, htaken⟩ := h
  obtain ⟨hplaced, -, -, -, hid⟩ := placed_before hids heq hplace
  obtain ⟨x, hx, hxslot⟩ := htaken 0 (by decide)
  obtain ⟨y, hy, hyslot⟩ := htaken 1 (by decide)
  obtain ⟨z, hz, hzslot⟩ := htaken 2 (by decide)
  generalize hm : multiplierOf prime (32 - bits) = m at *
  -- an id stands in one slot only, at most two behind its bucket
  obtain ⟨lx, hlx, honlyx⟩ := hplaced.once x hx
  obtain ⟨ly, hly, honlyy⟩ := hplaced.once y hy
  obtain ⟨lz, hlz, honlyz⟩ := hplaced.once z hz
  have hxk := (honlyx _).1 hxslot
  have hyk := (honlyy _).1 hyslot
  have hzk := (honlyz _).1 hzslot
  have hxy : x ≠ y := by
    rintro rfl
    have := (honlyx _).1 hyslot
    omega
  have hxz : x ≠ z := by
    rintro rfl
    have := (honlyx _).1 hzslot
    omega
  have hyz : y ≠ z := by
    rintro rfl
    have := (honlyy _).1 hzslot
    omega
  have hprobes : probes = 3 := rfl
  refine ⟨[id, x, y, z], ?_, rfl, ?_, ?_⟩
  · simp only [nodup_cons, mem_cons, not_mem_nil, or_false, not_or, nodup_nil, not_false_eq_true, and_true]
    exact ⟨⟨fun h => hid (h ▸ hx), fun h => hid (h ▸ hy), fun h => hid (h ▸ hz)⟩, ⟨hxy, hxz⟩, hyz⟩
  · rw [heq, forall_mem_cons, forall_mem_cons, forall_mem_cons, forall_mem_singleton]
    exact ⟨mem_append_right _ mem_cons_self, mem_append_left _ hx, mem_append_left _ hy, mem_append_left _ hz⟩
  · simp only [forall_mem_cons, not_mem_nil, IsEmpty.forall_iff, implies_true, and_true]
    omega

/-! ## Ids that are close -/

/-- What ids are multiplied with in the largest table. -/
def factor (prime : UInt32) : Nat := prime.toNat * 0x100 % 0x100000000 + 16

/-- Whether ids with the given difference have products that are less than five buckets apart. -/
def isNear (prime : UInt32) (d : Nat) : Bool := ((d * factor prime + 0x4ffff) % 0x100000000).blt 0x9ffff

theorem bucket_largest (hprime : prime ∈ primes) (id : UInt16) :
    bucket (multiplierOf prime 16) id.toUInt32 = id.toNat * factor prime % 0x100000000 / 0x10000 := by
  have hall : (primes.all fun p => (multiplierOf p 16).toNat == factor p) = true := by decide +kernel
  have hfactor := beq_iff_eq.1 (all_eq_true.1 hall prime hprime)
  have hshift := toNat_shiftOf_multiplierOf prime (show 16 < 256 by decide)
  rw [bucket_eq (by rw [hshift]; decide), hshift, UInt32.toNat_mul, UInt16.toNat_toUInt32, hfactor]
  simp only [Nat.reducePow]

theorem isNear_of_bucket (hprime : prime ∈ primes) {a b : UInt16} (hab : a.toNat < b.toNat)
    (ha : bucket (multiplierOf prime 16) a.toUInt32 ≤ bucket (multiplierOf prime 16) b.toUInt32 + 4)
    (hb : bucket (multiplierOf prime 16) b.toUInt32 ≤ bucket (multiplierOf prime 16) a.toUInt32 + 4) :
    isNear prime (b.toNat - a.toNat) = true := by
  rw [bucket_largest hprime, bucket_largest hprime] at ha hb
  have hle : a.toNat * factor prime ≤ b.toNat * factor prime := Nat.mul_le_mul_right _ (Nat.le_of_lt hab)
  rw [isNear, Nat.blt_eq, Nat.sub_mul]
  omega

/-! ## The differences for which this happens -/

/-- What is left of a product, taken around zero. -/
def residue (prime : UInt32) (d : Nat) : Int := (d * factor prime + 0x80000000) % 0x100000000 - 0x80000000

/-- How often a step can be taken within the box. -/
def reach (prime : UInt32) (d : Nat) : Nat := (0xffff * (residue prime d).natAbs + 0x4ffff * d) / 0x100000000

/-- Whether two differences span the lattice of a prime, and what they reach in the box is near for no other
prime. -/
def spansAlone (prime : UInt32) (a b : Nat) : Bool :=
  a * residue prime b - b * residue prime a == 0x100000000 &&
  (List.range (2 * reach prime b + 1)).all fun i => (List.range (2 * reach prime a + 1)).all fun j =>
    let d := ((i - reach prime b : Int) * a + (j - reach prime a : Int) * b).toNat
    d == 0 || 0xffff < d || !isNear prime d || primes.all fun q => !isNear q d || q == prime

/-- A short basis of the lattice for each prime, in the order of the primes. -/
def bases : List (Nat × Nat) :=
  [(18931, 11886), (30940, 13199), (27916, 13801), (29609, 16681), (2411, 9545), (15055, 7556), (17733, 21446),
   (42087, 3706), (25378, 11935), (40550, 11943), (20659, 11669), (22629, 14302), (11465, 21653), (27583, 7872),
   (26390, 5987), (5005, 74026), (7374, 25313), (38452, 4451), (28018, 21307), (99319, 4192), (27085, 9453),
   (44906, 4943), (13472, 13535), (18950, 1909), (92963, 777), (63375, 6212), (38140, 9673), (14125, 34508), (911,
   40699), (125699, 276), (31926, 10933), (24201, 5558), (14333, 30191), (31128, 13903), (21131, 11744), (17961,
   16199), (20111, 23162), (1730, 32583), (40025, 10319), (15826, 23379), (25781, 2141), (2777, 17612), (20419,
   13123), (4045, 78692), (11162, 33593), (27506, 20923), (17989, 10406), (1184, 40727), (16619, 28874), (11393,
   24989)]

/-- A list with something for each prime has something for a prime. -/
theorem exists_mem_zip {α : Type} (xs : List α) (hlen : xs.length = primes.length) (hprime : prime ∈ primes) :
    ∃ x ∈ xs, (prime, x) ∈ primes.zip xs := by
  rw [← map_fst_zip (Nat.le_of_eq hlen.symm)] at hprime
  obtain ⟨⟨_, x⟩, hmem, rfl⟩ := mem_map.1 hprime
  exact ⟨x, (of_mem_zip hmem).2, hmem⟩

theorem spansAlone_bases : ∀ e ∈ primes.zip bases, spansAlone e.1 e.2.1 e.2.2 = true := by decide +kernel

/-- A difference is a combination of the steps of a basis, by Cramer's rule. -/
theorem exists_combination {m a ra qa b rb qb d rd qd : Int} (ha : a * m = 0x100000000 * qa + ra)
    (hb : b * m = 0x100000000 * qb + rb) (hd : d * m = 0x100000000 * qd + rd)
    (hdet : a * rb - b * ra = 0x100000000) :
    ∃ i j, d = i * a + j * b ∧ 0x100000000 * i = d * rb - rd * b ∧ 0x100000000 * j = a * rd - ra * d := by
  have hone : 0x100000000 * (b * qa - a * qb) = (0x100000000 : Int) := by
    linear_combination hdet - b * ha + a * hb
  have hunit : b * qa - a * qb = 1 := by omega
  refine ⟨qd * b - d * qb, qa * d - a * qd, ?_, ?_, ?_⟩
  · linear_combination -d * hunit
  · linear_combination d * hb - b * hd
  · linear_combination a * hd - d * ha

/-- A coefficient of a difference in the box is one that the steps allow. -/
theorem natAbs_le_reach {d rd i : Int} {b : Nat} (hd : d.natAbs ≤ 0xffff) (hrd : rd.natAbs ≤ 0x4ffff)
    (hi : 0x100000000 * i = d * residue prime b - rd * b ∨ 0x100000000 * i = rd * b - residue prime b * d) :
    i.natAbs ≤ reach prime b := by
  have habs : 0x100000000 * i.natAbs ≤ d.natAbs * (residue prime b).natAbs + rd.natAbs * b := by
    have hmul : (d * residue prime b).natAbs = d.natAbs * (residue prime b).natAbs := Int.natAbs_mul _ _
    have hmul' : (rd * b).natAbs = rd.natAbs * b := by rw [Int.natAbs_mul, Int.natAbs_natCast]
    rw [← hmul, ← hmul']
    rw [Int.mul_comm _ d] at hi
    omega
  rw [reach, Nat.le_div_iff_mul_le (by decide), Nat.mul_comm]
  exact habs.trans (Nat.add_le_add (Nat.mul_le_mul_right _ hd) (Nat.mul_le_mul_right _ hrd))

/-- No difference is near for two primes. -/
theorem eq_of_isNear {q : UInt32} {d : Nat} (hprime : prime ∈ primes) (hq : q ∈ primes) (hpos : 0 < d)
    (hle : d ≤ 0xffff) (hnear : isNear prime d = true) (hnear' : isNear q d = true) : q = prime := by
  obtain ⟨⟨a, b⟩, -, hmem⟩ := exists_mem_zip bases rfl hprime
  have hspan := spansAlone_bases _ hmem
  rw [spansAlone, Bool.and_eq_true, beq_iff_eq] at hspan
  obtain ⟨hdet, hall⟩ := hspan
  dsimp only at hdet hall
  have hres : ∀ e : Nat, ∃ k, (e : Int) * factor prime = 0x100000000 * k + residue prime e := by
    intro e
    refine ⟨(e * factor prime + 0x80000000) / 0x100000000, ?_⟩
    rw [residue]
    omega
  -- the product with the difference, taken around zero
  obtain ⟨k, rd, hk, hrd⟩ : ∃ k rd : Int, (d : Int) * factor prime = 0x100000000 * k + rd ∧ rd.natAbs ≤ 0x4ffff := by
    rw [isNear, Nat.blt_eq] at hnear
    refine ⟨(d * factor prime + 0x4ffff) / 0x100000000, (d * factor prime + 0x4ffff) % 0x100000000 - 0x4ffff, ?_, ?_⟩
    · omega
    · omega
  obtain ⟨ka, hka⟩ := hres a
  obtain ⟨kb, hkb⟩ := hres b
  obtain ⟨i, j, hd, hi, hj⟩ := exists_combination hka hkb hk hdet
  have hi' := natAbs_le_reach (d := d) (by simpa using hle) hrd (.inl hi)
  rw [Int.mul_comm (a : Int) rd] at hj
  have hj' := natAbs_le_reach (d := d) (by simpa using hle) hrd (.inr hj)
  rw [all_eq_true] at hall
  have hrow := hall (i + reach prime b).toNat (mem_range.2 (by omega))
  rw [all_eq_true] at hrow
  have hcell := hrow (j + reach prime a).toNat (mem_range.2 (by omega))
  have hti : ((i + reach prime b).toNat : Int) - reach prime b = i := by omega
  have htj : ((j + reach prime a).toNat : Int) - reach prime a = j := by omega
  rw [hti, htj, ← hd, Int.toNat_natCast] at hcell
  simp only [Bool.or_eq_true, beq_iff_eq, decide_eq_true_eq, Bool.not_eq_true', all_eq_true] at hcell
  rcases hcell with ((h0 | hlong) | hfar) | hother
  · omega
  · omega
  · rw [hfar] at hnear
    exact nomatch hnear
  · rcases hother q hq with hfar | heq
    · rw [hfar] at hnear'
      exact nomatch hnear'
    · exact heq

/-! ## Counting -/

/-- Crowds of different primes have no two ids in common. -/
theorem disjoint_crowds {q : UInt32} {s t : List UInt16} (hprime : prime ∈ primes) (hq : q ∈ primes) (hne : q ≠ prime)
    (hs : Crowd ids (multiplierOf prime 16) s) (ht : Crowd ids (multiplierOf q 16) t) :
    Disjoint s.toFinset.offDiag t.toFinset.offDiag := by
  rw [Finset.disjoint_left]
  rintro ⟨a, b⟩ hab hab'
  simp only [Finset.mem_offDiag, mem_toFinset] at hab hab'
  obtain ⟨-, -, -, hclose⟩ := hs
  obtain ⟨-, -, -, hclose'⟩ := ht
  have hlt : ∀ c : UInt16, c.toNat < 0x10000 := UInt16.toNat_lt
  rcases Nat.lt_trichotomy a.toNat b.toNat with h | h | h
  · have hnear := isNear_of_bucket hprime h (hclose a hab.1 b hab.2.1) (hclose b hab.2.1 a hab.1)
    have hnear' := isNear_of_bucket hq h (hclose' a hab'.1 b hab'.2.1) (hclose' b hab'.2.1 a hab'.1)
    exact hne (eq_of_isNear hprime hq (by omega) (by have := hlt b; omega) hnear hnear')
  · exact hab.2.2 (UInt16.toNat_inj.1 h)
  · have hnear := isNear_of_bucket hprime h (hclose b hab.2.1 a hab.1) (hclose a hab.1 b hab.2.1)
    have hnear' := isNear_of_bucket hq h (hclose' b hab'.2.1 a hab'.1) (hclose' a hab'.1 b hab'.2.1)
    exact hne (eq_of_isNear hprime hq (by omega) (by have := hlt a; omega) hnear hnear')

/-- A crowd for every prime takes more than 24 ids. -/
theorem length_gt_of_crowds (h : ∀ p ∈ primes, ∃ four, Crowd ids (multiplierOf p 16) four) : 24 < ids.length := by
  choose! four hfour using h
  have hdisj : (primes.toFinset : Set UInt32).PairwiseDisjoint fun p => (four p).toFinset.offDiag := by
    intro p hp q hq hne
    rw [Finset.mem_coe, mem_toFinset] at hp hq
    exact disjoint_crowds hp hq hne.symm (hfour p hp) (hfour q hq)
  have hsub : primes.toFinset.biUnion (fun p => (four p).toFinset.offDiag) ⊆ (stored ids).toFinset.offDiag := by
    intro ab hab
    obtain ⟨p, hp, hab⟩ := Finset.mem_biUnion.1 hab
    refine Finset.offDiag_mono (fun a ha => ?_) hab
    rw [mem_toFinset] at hp ha ⊢
    exact (hfour p hp).2.2.1 a ha
  have htwelve : ∀ p ∈ primes.toFinset, (four p).toFinset.offDiag.card = 12 := by
    intro p hp
    obtain ⟨hnodup, hlen, -⟩ := hfour p (mem_toFinset.1 hp)
    rw [Finset.offDiag_card, toFinset_card_of_nodup hnodup, hlen]
  have hcard := Finset.card_le_card hsub
  have hprimes : primes.toFinset.card = 50 := by decide +kernel
  rw [Finset.card_biUnion hdisj, Finset.sum_congr rfl htwelve, Finset.sum_const, hprimes, smul_eq_mul,
    Finset.offDiag_card] at hcard
  -- fifty times twelve ordered pairs
  have hle : (stored ids).toFinset.card ≤ ids.length := by
    have := toFinset_card_le (stored ids)
    rwa [stored, length_map, ← stored] at this
  by_contra hshort
  have hsquare := Nat.mul_le_mul (show (stored ids).toFinset.card ≤ 24 by omega)
    (show (stored ids).toFinset.card - 1 ≤ 23 by omega)
  rw [Nat.mul_sub_one] at hsquare
  omega

/-- **Ids that always have a hash.** Up to 24 distinct ids have one, in any order. Any ids have one unless at every
size that is tried and for every prime some id finds its slots taken; then the failure is a fatal one. -/
theorem compute_of_blocked (hids : Storable ids) :
    (ids.length ≤ 24 → ∃ h, compute ids = .ok h) ∧
    ((∃ h, compute ids = .ok h) ∨ compute ids = .error (.noMemberHash ids.length largestSize)) ∧
    (compute ids = .error (.noMemberHash ids.length largestSize) ↔
      ∀ bits, Tried ids bits → ∀ prime ∈ primes, Blocked ids bits prime) ∧
    (Failure.noMemberHash ids.length largestSize).report.kind? = some .fatal := by
  have hblocked : sizes.findSome? (bestOfSize (stored ids)) = none ↔
      ∀ bits, Tried ids bits → ∀ prime ∈ primes, Blocked ids bits prime := by
    rw [findSome?_sizes_eq_none_iff]
    refine forall₂_congr fun bits htried => forall₂_congr fun prime _ => ?_
    exact placement_eq_none_iff hids (tried_iff.1 htried).1
  cases hfind : sizes.findSome? (bestOfSize (stored ids)) with
  | some h =>
    have hok := compute_eq_ok_iff.2 ⟨hids, hfind⟩
    refine ⟨fun _ => ⟨h, hok⟩, .inl ⟨h, hok⟩, iff_of_false ?_ ?_, rfl⟩
    · simp only [hok, reduceCtorEq, not_false_eq_true]
    · rw [← hblocked, hfind]
      exact Option.some_ne_none h
  | none =>
    have hall := hblocked.1 hfind
    have herror := compute_eq_error hids hfind
    refine ⟨fun hlen => ?_, .inr herror, iff_of_true herror hall, rfl⟩
    have htried : Tried ids 16 := tried_iff.2 ⟨by decide, Nat.le_trans hlen (by decide)⟩
    refine absurd (length_gt_of_crowds fun p hp => ?_) (Nat.not_lt.2 hlen)
    simpa only [Nat.reduceSub] using (hall 16 htried p hp).exists_crowd hids

/-- A dozen ids in a row. -/
theorem compute_of_blocked_dozen : ∃ h, compute [12, 11, 10, 9, 8, 7, 6, 5, 4, 3, 2, 1] = .ok h :=
  (compute_of_blocked (by unfold Storable; decide)).1 (by decide)

/-! ## Ids without a hash -/

/-- Whether ids find free slots where only the given ones are taken. -/
def fits (multiplier : UInt32) : List UInt16 → List Nat → Bool
  | [], _ => true
  | id :: rest, taken =>
    let k := bucket multiplier id.toUInt32
    match (List.range probes).find? fun l => !taken.contains (k + l) with
    | some l => fits multiplier rest ((k + l) :: taken)
    | none => false

/-- Ids that find no slots among themselves find none among others either: every slot that they would take is
taken in the end. The induction is on the ids that are left of those among all. -/
theorem place_eq_none_of_fits {few all : List UInt16} (hsub : few.Sublist all) (hne : 0 ∉ all) {taken : List Nat}
    {n : Nat} (htaken : ∀ j ∈ taken, slots[j]? ≠ some 0) (hfits : fits multiplier few taken = false) :
    place multiplier all slots n = none := by
  -- what is taken stays so, and an id that is placed takes a slot
  have hset : ∀ {slots : Array UInt16} {id : UInt16} (k j : Nat), id ≠ 0 → slots[j]? ≠ some 0 ∨ j = k →
      (slots.setIfInBounds k id)[j]? ≠ some 0 := by
    intro slots id k j hid h
    rw [Array.getElem?_setIfInBounds]
    split
    · split
      · simpa using hid
      · exact (Option.some_ne_none _).symm
    · exact h.resolve_right fun heq => absurd heq.symm ‹_›
  induction hsub generalizing taken slots n with
  | slnil => exact absurd hfits Bool.noConfusion
  | cons id hsub ih =>
    rw [mem_cons, not_or] at hne
    rw [place]
    split
    · exact ih hne.2 (fun j hj => hset _ j (Ne.symm hne.1) (.inl (htaken j hj))) hfits
    · rfl
  | cons_cons id hsub ih =>
    rw [mem_cons, not_or] at hne
    rw [place]
    split
    · rename_i l hfree
      rw [fits] at hfits
      cases hfind : (List.range probes).find? fun l => !taken.contains (bucket multiplier id.toUInt32 + l) with
      | none =>
        -- all slots of the id are taken
        have hl := of_freeProbe hfree
        have := (find?_eq_none.1 hfind) l (mem_range.2 hl.1)
        simp only [Bool.not_eq_true', Bool.not_eq_false, contains_iff_mem] at this
        exact absurd hl.2 (htaken _ this)
      | some l' =>
        rw [hfind] at hfits
        refine ih hne.2 (forall_mem_cons.2 ⟨?_, fun j hj => hset _ j (Ne.symm hne.1) (.inl (htaken j hj))⟩) hfits
        apply hset _ _ (Ne.symm hne.1)
        -- the slot is taken already, or it is the first free one here too
        obtain ⟨hzero, -, hfirst⟩ := find?_range_eq_some.1 hfree
        obtain ⟨-, -, hfirst'⟩ := find?_range_eq_some.1 hfind
        rcases Nat.lt_trichotomy l l' with hlt | heq | hgt
        · have htook := hfirst' l hlt
          rw [Bool.not_not, contains_iff_mem] at htook
          exact absurd (beq_iff_eq.1 hzero) (htaken _ htook)
        · exact .inr (by rw [heq])
        · have hused := hfirst l' hgt
          exact .inl (by simpa using hused)
    · rfl

/-- Whether no number comes twice, one comparison for each pair. -/
def distinct : List Nat → Bool
  | [] => true
  | n :: rest => rest.all (fun k => !n.beq k) && distinct rest

theorem nodup_of_distinct {ns : List Nat} (h : distinct ns = true) : ns.Nodup := by
  induction ns with
  | nil => exact nodup_nil
  | cons n rest ih =>
    rw [distinct, Bool.and_eq_true, all_eq_true] at h
    refine nodup_cons.2 ⟨fun hmem => ?_, ih h.2⟩
    have hself := h.1 n hmem
    rw [Nat.beq_refl] at hself
    exact nomatch hself

/-- For each prime four ids that find no slots among themselves, whatever the size. -/
def crowds : List (List Int) :=
  [[23772, 35658, 47544, 11886], [17314, 30513, 43712, 4115], [37007, 64923, 50808, 9091], [30439, 60048, 17511,
   830], [16679, 26224, 35769, 7134], [52721, 7556, 22611, 37666], [64338, 11139, 28872, 46605], [49499, 53205,
   11118, 7412], [46232, 58167, 20854, 8919], [31389, 43332, 55275, 19446], [62570, 41911, 21252, 9583], [28604,
   42906, 57208, 14302], [44583, 56048, 10188, 33118], [62914, 7748, 43203, 35331], [60973, 34583, 8193, 2206],
   [64016, 54006, 43996, 59011], [39069, 64382, 57008, 13756], [50568, 12116, 55019, 7665], [35903, 57210, 29192,
   7885], [8384, 12576, 16768, 4192], [64362, 739, 37277, 27824], [64678, 19772, 24715, 14829], [53951, 63, 13535,
   40479], [58759, 1909, 20859, 39809], [3108, 3885, 4662, 2331], [12424, 18636, 24848, 6212], [58038, 19898,
   29571, 10225], [65442, 51317, 2684, 16809], [53157, 11547, 52246, 12458], [828, 1104, 1380, 552], [54665, 11806,
   22739, 873], [31379, 61138, 36937, 7178], [52149, 7625, 37816, 21958], [33709, 64837, 16484, 2581], [42672,
   63803, 410, 21541], [16540, 32739, 48938, 341], [64327, 44216, 24105, 943], [32886, 65469, 31156, 303], [63165,
   12821, 23140, 2502], [40278, 63657, 1073, 16899], [55844, 4282, 57985, 30063], [21339, 38951, 56563, 3727],
   [56850, 2889, 36431, 23308], [46332, 38242, 30152, 42287], [56024, 107, 44862, 11269], [62769, 35263, 7757,
   14340], [26458, 44447, 62436, 8469], [50670, 8759, 49486, 9943], [54816, 21578, 4959, 38197], [38207, 26814,
   63196, 1825]]

/-- Two hundred ids that no prime places in a table of any size. -/
theorem compute_crowds : Storable crowds.flatten ∧ crowds.flatten.length ≤ 256 ∧
    compute crowds.flatten = .error (.noMemberHash 200 largestSize) := by
  have hids : Storable crowds.flatten := by
    refine ⟨by decide +kernel, Nodup.of_map Int.toNat (nodup_of_distinct ?_)⟩
    decide +kernel
  refine ⟨hids, by decide +kernel, ?_⟩
  have hfits : ∀ e ∈ primes.zip crowds, ∀ n < 9, fits (multiplierOf e.1 (16 + n)) (stored e.2) [] = false := by
    decide +kernel
  refine compute_eq_error hids (findSome?_sizes_eq_none_iff.2 fun bits htried prime hprime => ?_)
  have hbits := mem_sizes.1 (tried_iff.1 htried).1
  have hlen : 200 ≤ 2 ^ bits := htried.2.2
  have hlow : 8 ≤ bits := by
    by_contra hlt
    have := Nat.pow_le_pow_right (n := 2) (by decide) (show bits ≤ 7 by omega)
    omega
  obtain ⟨four, hfour, hmem⟩ := exists_mem_zip crowds rfl hprime
  have hmult := hfits _ hmem (16 - bits) (by omega)
  rw [show 16 + (16 - bits) = 32 - bits by omega] at hmult
  exact place_eq_none_of_fits ((sublist_flatten_of_mem hfour).map _) (zero_notMem_stored hids)
    (fun _ hj => absurd hj not_mem_nil) hmult

end MemberHash
end Firmware
