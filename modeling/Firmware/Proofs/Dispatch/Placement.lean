import Firmware.Dispatch.MemberHash
import Mathlib.Algebra.Group.Nat.Defs

/-!
# Member ids in their slots

A hash that `compute` gives is a table in which every member id has exactly one slot, the lookup finds that
slot, and no other id is found. The argument is one invariant of placing (`Placed`): each id that has been
placed stands in one slot and nowhere else, at most two slots behind its bucket, and what is not an id is
free. One step keeps it because the slot that an id goes to was free.

The bounds of the table come from the multiplier alone: its low byte is the shift, so a bucket has as many
bits as the shift leaves. That holds for every prime and every size that is tried, also where placing fails
later on.
-/

namespace Firmware
namespace MemberHash

open List

variable {h : MemberHash} {ids : List Int} {bits l : Nat} {id : Int} {multiplier : UInt32} {slots : Array UInt16}

/-! ## Buckets -/

/-- The low byte of a multiplier is the shift that it was made for. -/
theorem toNat_shiftOf_multiplierOf (prime : UInt32) {shift : Nat} (h : shift < 256) :
    (shiftOf (multiplierOf prime shift)).toNat = shift := by
  unfold shiftOf multiplierOf
  have hlow : (0xff : UInt32).toNat = 2 ^ 8 - 1 := rfl
  have hshift : shift.toUInt32.toNat = shift := UInt32.toNat_ofNat_of_lt' (Nat.lt_trans h (by decide))
  rw [UInt32.toNat_and, hlow, Nat.and_two_pow_sub_one_eq_mod, UInt32.toNat_or, Nat.or_mod_two_pow, hshift,
    UInt32.toNat_shiftLeft]
  -- the prime stands above the low byte
  have hprime : prime.toNat <<< ((8 : UInt32).toNat % 32) % 2 ^ 32 % 2 ^ 8 = 0 := by
    have h8 : (8 : UInt32).toNat % 32 = 8 := rfl
    rw [h8, Nat.shiftLeft_eq]
    omega
  rw [hprime, Nat.zero_or]
  exact Nat.mod_eq_of_lt h

/-- A bucket is the upper part of the product. -/
theorem bucket_eq (h : (shiftOf multiplier).toNat < 32) (id : UInt32) :
    bucket multiplier id = (id * multiplier).toNat / 2 ^ (shiftOf multiplier).toNat := by
  unfold bucket shiftRight32
  generalize (shiftOf multiplier).toNat = shift at h
  have hshift : shift.toUInt32.toNat % 32 = shift := by
    have hle : shift.toUInt32.toNat = shift := UInt32.toNat_ofNat_of_lt' (Nat.lt_trans h (by decide))
    rw [hle]
    exact Nat.mod_eq_of_lt h
  rw [if_pos h, UInt32.toNat_shiftRight, hshift, Nat.shiftRight_eq_div_pow]

/-- A bucket has the bits that the shift leaves. -/
theorem bucket_lt (h : (shiftOf multiplier).toNat < 32) (id : UInt32) :
    bucket multiplier id < 2 ^ (32 - (shiftOf multiplier).toNat) := by
  rw [bucket_eq h]
  apply Nat.div_lt_of_lt_mul
  rw [← Nat.pow_add, Nat.add_sub_cancel' (Nat.le_of_lt h)]
  exact UInt32.toNat_lt _

theorem mem_sizes : bits ∈ sizes ↔ 1 ≤ bits ∧ bits ≤ 16 := by
  unfold sizes
  rw [mem_map]
  constructor
  · rintro ⟨n, hn, rfl⟩
    have := mem_range.1 hn
    omega
  · intro h
    exact ⟨bits - 1, mem_range.2 (by omega), by omega⟩

/-- Every slot that is looked at lies in the table, whatever prime and size are tried. -/
theorem bucket_add_lt (prime : UInt32) (hbits : bits ∈ sizes) (id : UInt32) (hl : l < probes) :
    bucket (multiplierOf prime (32 - bits)) id + l < 2 ^ bits + probes + 1 := by
  rw [mem_sizes] at hbits
  have hshift := toNat_shiftOf_multiplierOf prime (show 32 - bits < 256 by omega)
  have hlt := bucket_lt (by omega : (shiftOf (multiplierOf prime (32 - bits))).toNat < 32) id
  rw [hshift, show 32 - (32 - bits) = bits by omega] at hlt
  omega

/-! ## Placing -/

/-- The ids of `done` are placed: each of them stands in one slot only, which is among those looked at for
it, and every other slot is free. -/
structure Placed (multiplier : UInt32) (done : List UInt16) (slots : Array UInt16) : Prop where
  once : ∀ id ∈ done, ∃ l < probes, ∀ j : Nat, slots[j]? = some id ↔ j = bucket multiplier id.toUInt32 + l
  free : ∀ (j : Nat) v, slots[j]? = some v → v = 0 ∨ v ∈ done

theorem placed_nil (multiplier : UInt32) (n : Nat) : Placed multiplier [] (Array.replicate n 0) := by
  refine ⟨fun id hid => absurd hid not_mem_nil, ?_⟩
  intro j v hv
  rw [Array.getElem?_replicate] at hv
  split at hv
  · exact .inl (Option.some.inj hv).symm
  · exact nomatch hv

/-- The slot that an id goes to is free. -/
theorem of_freeProbe {k : Nat} (h : freeProbe slots k = some l) : l < probes ∧ slots[k + l]? = some 0 :=
  ⟨mem_range.1 (mem_of_find?_eq_some h), by simpa using find?_some h⟩

/-- Putting a new id into a free slot changes this slot and no other. -/
theorem Placed.step {done : List UInt16} {id : UInt16} (h : Placed multiplier done slots) (hdone : 0 ∉ done)
    (hid : id ∉ done) (hne : id ≠ 0) (hfree : freeProbe slots (bucket multiplier id.toUInt32) = some l) :
    Placed multiplier (done ++ [id]) (slots.setIfInBounds (bucket multiplier id.toUInt32 + l) id) := by
  obtain ⟨hl, hzero⟩ := of_freeProbe hfree
  generalize hk : bucket multiplier id.toUInt32 + l = k at hzero ⊢
  have hlt : k < slots.size := (Array.getElem?_eq_some_iff.1 hzero).1
  have hset : ∀ j, (slots.setIfInBounds k id)[j]? = if j = k then some id else slots[j]? := by
    intro j
    rw [Array.getElem?_setIfInBounds]
    by_cases hj : j = k
    · rw [if_pos hj.symm, if_pos hlt, if_pos hj]
    · rw [if_neg (Ne.symm hj), if_neg hj]
  constructor
  · intro id' hid'
    -- every slot but `k` keeps what it has
    obtain hid' | hid' := mem_append.1 hid'
    · -- an id placed before: its slot is not `k`, which was free
      obtain ⟨l', hl', hiff⟩ := h.once id' hid'
      refine ⟨l', hl', fun j => ?_⟩
      rw [hset, ← hiff]
      by_cases hj : j = k
      · rw [if_pos hj, hj, hzero]
        constructor
        · rintro ⟨⟩
          exact absurd hid' hid
        · rintro ⟨⟩
          exact absurd hid' hdone
      · rw [if_neg hj]
    · -- the new id: no slot held it before
      obtain rfl := mem_singleton.1 hid'
      refine ⟨l, hl, fun j => ?_⟩
      rw [hset, hk]
      by_cases hj : j = k
      · simp [hj]
      · rw [if_neg hj]
        constructor
        · intro hv
          obtain h0 | hmem := h.free j _ hv
          · exact absurd h0 hne
          · exact absurd hmem hid
        · intro hj'
          exact absurd hj' hj
  · intro j v hv
    rw [hset] at hv
    by_cases hj : j = k
    · rw [if_pos hj] at hv
      obtain rfl := Option.some.inj hv
      exact .inr (mem_append.2 (.inr (mem_singleton.2 rfl)))
    · rw [if_neg hj] at hv
      exact (h.free j v hv).imp_right fun hmem => mem_append.2 (.inl hmem)

/-- A run of placing ends with all ids placed. The induction is on the ids that are left. -/
theorem Placed.run {ids done : List UInt16} {slots' : Array UInt16} {collisions collisions' : Nat}
    (h : Placed multiplier done slots) (hne : 0 ∉ done ++ ids) (hnodup : (done ++ ids).Nodup)
    (hplace : place multiplier ids slots collisions = some (slots', collisions')) :
    Placed multiplier (done ++ ids) slots' ∧ slots'.size = slots.size := by
  induction ids generalizing done slots collisions with
  | nil =>
    obtain ⟨rfl, rfl⟩ := Prod.mk.inj (Option.some.inj hplace)
    rw [append_nil]
    exact ⟨h, rfl⟩
  | cons id rest ih =>
    have hsplit : done ++ id :: rest = done ++ [id] ++ rest := by simp
    unfold place at hplace
    dsimp only at hplace
    split at hplace
    next l hfree =>
      have hid : id ∉ done := by
        intro hmem
        exact nodup_append.1 hnodup |>.2.2 id hmem id (mem_cons_self ..) rfl
      have hdone : 0 ∉ done := fun hmem => hne (mem_append.2 (.inl hmem))
      have hzero : id ≠ 0 := by
        rintro rfl
        exact hne (mem_append.2 (.inr (mem_cons_self ..)))
      have hstep := h.step hdone hid hzero hfree
      rw [hsplit] at hne hnodup ⊢
      obtain ⟨hall, hsize⟩ := ih hstep hne hnodup hplace
      exact ⟨hall, hsize.trans Array.size_setIfInBounds⟩
    next => exact nomatch hplace

/-! ## The search -/

/-- What the best placement so far is among those of the primes that were tried: the first one with the fewest
collisions. -/
def Wins (f : UInt32 → Option Candidate) (tried : List UInt32) : Option Candidate → Prop
  | none => ∀ p ∈ tried, f p = none
  | some c => ∃ front p back, tried = front ++ p :: back ∧ f p = some c ∧
      (∀ q ∈ front, ∀ d, f q = some d → c.collisions < d.collisions) ∧
      ∀ q ∈ back, ∀ d, f q = some d → c.collisions ≤ d.collisions

section Search

variable {f : UInt32 → Option Candidate} {tried : List UInt32} {best : Option Candidate}

/-- One prime more is tried. -/
theorem Wins.better (h : Wins f tried best) (p : UInt32) : Wins f (tried ++ [p]) (better best (f p)) := by
  have hnew : ∀ n, f p = some n → (∀ q ∈ tried, ∀ d, f q = some d → n.collisions < d.collisions) →
      Wins f (tried ++ [p]) (some n) := fun n hn hfewer =>
    ⟨tried, p, [], rfl, hn, hfewer, fun _ hq => absurd hq not_mem_nil⟩
  cases best with
  | none =>
    cases hp : f p with
    | none => exact forall_mem_append.2 ⟨h, forall_mem_singleton.2 hp⟩
    | some n => exact hnew n hp fun q hq d hd => nomatch (h q hq).symm.trans hd
  | some c =>
    obtain ⟨front, q, back, rfl, hc, hfront, hback⟩ := h
    have hold : (∀ d, f p = some d → c.collisions ≤ d.collisions) → Wins f (front ++ q :: back ++ [p]) (some c) :=
      fun hle => ⟨front, q, back ++ [p], by simp, hc, hfront, forall_mem_append.2 ⟨hback, forall_mem_singleton.2 hle⟩⟩
    cases hp : f p with
    | none => exact hold fun d hd => nomatch hp.symm.trans hd
    | some n =>
      show Wins f _ (if n.collisions < c.collisions then some n else some c)
      split
      next hlt =>
        refine hnew n hp (forall_mem_append.2 ⟨fun r hr d hd => Nat.lt_trans hlt (hfront r hr d hd), ?_⟩)
        refine forall_mem_cons.2 ⟨fun d hd => ?_, fun r hr d hd => Nat.lt_of_lt_of_le hlt (hback r hr d hd)⟩
        rwa [← Option.some.inj (hc.symm.trans hd)]
      next hge =>
        refine hold fun d hd => ?_
        rw [← Option.some.inj (hp.symm.trans hd)]
        exact Nat.le_of_not_lt hge

/-- The best of several placements. -/
theorem Wins.foldl (h : Wins f tried best) (ps : List UInt32) :
    Wins f (tried ++ ps) (ps.foldl (fun best p => MemberHash.better best (f p)) best) := by
  induction ps generalizing tried best with
  | nil => rwa [append_nil]
  | cons p rest ih =>
    rw [foldl_cons, append_cons]
    exact ih (h.better p)

end Search

/-- A placement is that of the slots by the multiplier. -/
theorem candidate_eq_some {ids : List UInt16} {size shift : Nat} {prime : UInt32} {c : Candidate} :
    candidate ids size shift prime = some c ↔ c.hash.multiplier = multiplierOf prime shift ∧ c.hash.size = size ∧
      place (multiplierOf prime shift) ids (Array.replicate (size + probes + 1) 0) 0 = some (c.hash.slots, c.collisions) := by
  obtain ⟨⟨multiplier, slots, n⟩, collisions⟩ := c
  unfold candidate
  dsimp only
  cases hplace : place (multiplierOf prime shift) ids (Array.replicate (size + probes + 1) 0) 0 with
  | none => simp
  | some r => simp [Prod.ext_iff, eq_comm, and_assoc, and_left_comm]

/-- The hash of a size is the best placement there. -/
theorem wins_bestOfSize {ids : List UInt16} (hlen : ids.length ≤ 2 ^ bits) : ∃ best,
    Wins (candidate ids (2 ^ bits) (32 - bits)) primes best ∧ bestOfSize ids bits = best.map (·.hash) := by
  have hstart : Wins (candidate ids (2 ^ bits) (32 - bits)) [] none := fun _ hp => absurd hp not_mem_nil
  refine ⟨_, hstart.foldl primes, ?_⟩
  unfold bestOfSize
  rw [Nat.one_shiftLeft, if_neg (Nat.not_lt.2 hlen)]

theorem bestOfSize_eq_none {ids : List UInt16} (hlen : 2 ^ bits < ids.length) : bestOfSize ids bits = none := by
  unfold bestOfSize
  rw [Nat.one_shiftLeft, if_pos hlen]

/-- What the hash of a table of `2 ^ bits` slots is like. -/
theorem of_bestOfSize {ids : List UInt16} (hne : 0 ∉ ids) (hnodup : ids.Nodup) (hbest : bestOfSize ids bits = some h) :
    ids.length ≤ 2 ^ bits ∧ h.size = 2 ^ bits ∧ h.slots.size = 2 ^ bits + probes + 1 ∧
      (∃ prime ∈ primes, h.multiplier = multiplierOf prime (32 - bits)) ∧
      Placed h.multiplier ids h.slots := by
  have hlen : ids.length ≤ 2 ^ bits :=
    Nat.le_of_not_lt fun hlong => nomatch (bestOfSize_eq_none hlong).symm.trans hbest
  obtain ⟨best, hwins, heq⟩ := wins_bestOfSize hlen
  obtain ⟨c, rfl, rfl⟩ := Option.map_eq_some_iff.1 (heq.symm.trans hbest)
  obtain ⟨front, prime, back, hprimes, hc, -⟩ := hwins
  obtain ⟨hmult, hsize, hplace⟩ := candidate_eq_some.1 hc
  obtain ⟨hplaced, hslots⟩ := (placed_nil _ _).run (by simpa using hne) (by simpa using hnodup) hplace
  rw [nil_append, ← hmult] at hplaced
  rw [Array.size_replicate] at hslots
  exact ⟨hlen, hsize, hslots, ⟨prime, by rw [hprimes]; simp, hmult⟩, hplaced⟩

/-! ## The check of the ids -/

theorem inRange_iff : inRange id = true ↔ 1 ≤ id ∧ id ≤ 65535 := by
  unfold inRange
  rw [Bool.and_eq_true, decide_eq_true_iff, decide_eq_true_iff]
  omega

/-- The check passes exactly where all ids can be stored, none is repeated and none was seen before. -/
theorem checkIds_eq_ok_iff {seen : Array Bool} (hsize : seen.size = largestSize + 1) : checkIds ids seen = .ok () ↔
      (∀ id ∈ ids, 1 ≤ id ∧ id ≤ 65535) ∧ ids.Nodup ∧ ∀ id ∈ ids, seen.getD id.toNat false = false := by
  induction ids generalizing seen with
  | nil => simp [checkIds]
  | cons id rest ih =>
    unfold checkIds
    by_cases hrange : 1 ≤ id ∧ id ≤ 65535
    · have hin : inRange id = true := inRange_iff.2 hrange
      by_cases hseen : seen.getD id.toNat false = true
      · simp only [hin, hseen, Bool.not_true, Bool.false_eq_true, if_false, if_true]
        constructor
        · intro herr
          exact nomatch herr
        · rintro ⟨-, -, hnew⟩
          rw [hnew id (mem_cons_self ..)] at hseen
          exact nomatch hseen
      · have hfalse : seen.getD id.toNat false = false := Bool.eq_false_iff.2 hseen
        -- an id further on was not seen, exactly if it is not this one and was not seen before
        have hmark : ∀ id' : Int, 1 ≤ id' → ((seen.setIfInBounds id.toNat true).getD id'.toNat false = false ↔
            id ≠ id' ∧ seen.getD id'.toNat false = false) := by
          intro id' hid'
          have hlt : id.toNat < seen.size := by
            rw [hsize]
            unfold largestSize
            omega
          rw [Array.getD_eq_getD_getElem?, Array.getD_eq_getD_getElem?, Array.getElem?_setIfInBounds]
          by_cases heq : id.toNat = id'.toNat
          · have : id = id' := by omega
            simp [this, this ▸ hlt]
          · have : id ≠ id' := fun h => heq (congrArg Int.toNat h)
            simp [heq, this]
        simp only [hin, hfalse, Bool.not_true, Bool.false_eq_true, if_false]
        rw [ih (Array.size_setIfInBounds.trans hsize)]
        simp only [forall_mem_cons, nodup_cons]
        constructor
        · rintro ⟨hall, hnodup, hnew⟩
          refine ⟨⟨hrange, hall⟩, ⟨?_, hnodup⟩, hfalse, ?_⟩
          · intro hmem
            exact ((hmark id hrange.1).1 (hnew id hmem)).1 rfl
          · intro id' hid'
            exact ((hmark id' (hall id' hid').1).1 (hnew id' hid')).2
        · rintro ⟨⟨-, hall⟩, ⟨hnot, hnodup⟩, -, hold⟩
          refine ⟨hall, hnodup, fun id' hid' => ?_⟩
          refine (hmark id' (hall id' hid').1).2 ⟨?_, hold id' hid'⟩
          rintro rfl
          exact hnot hid'
    · have hout : inRange id = false := by
        rw [Bool.eq_false_iff, Ne, inRange_iff]
        exact hrange
      simp [hout, hrange]

/-- The ids as they are stored. -/
def stored (ids : List Int) : List UInt16 := ids.map fun id => id.toNat.toUInt16

/-- Ids can be hashed if they fit into a slot that is not free and differ from each other. -/
def Storable (ids : List Int) : Prop := (∀ id ∈ ids, 1 ≤ id ∧ id ≤ 65535) ∧ ids.Nodup

theorem checkIds_new_eq_ok_iff : checkIds ids (Array.replicate (largestSize + 1) false) = .ok () ↔ Storable ids := by
  rw [checkIds_eq_ok_iff Array.size_replicate]
  unfold Storable
  constructor
  · rintro ⟨hall, hnodup, -⟩
    exact ⟨hall, hnodup⟩
  · rintro ⟨hall, hnodup⟩
    refine ⟨hall, hnodup, fun id hid => ?_⟩
    rw [Array.getD_eq_getD_getElem?, Array.getElem?_replicate]
    split <;> rfl

/-- A hash is that of the first size that has one. -/
theorem compute_eq_ok_iff :
    compute ids = .ok h ↔ Storable ids ∧ sizes.findSome? (bestOfSize (stored ids)) = some h := by
  rw [← checkIds_new_eq_ok_iff]
  unfold compute
  cases hcheck : checkIds ids (Array.replicate (largestSize + 1) false) with
  | error f => simp [bind, Except.bind]
  | ok _ =>
    have hstored : (ids.map fun id => id.toNat.toUInt16) = stored ids := rfl
    cases hfound : sizes.findSome? (bestOfSize (stored ids)) <;>
      simp [bind, Except.bind, hstored, hfound, pure, Except.pure]

/-! ## Stored ids -/

section Stored

variable {ids : List Int}

theorem toNat_stored {id : Int} (h : 1 ≤ id ∧ id ≤ 65535) : (id.toNat.toUInt16.toNat : Int) = id := by
  have : id.toNat.toUInt16.toNat = id.toNat := UInt16.toNat_ofNat_of_lt' (by show _ < 65536; omega)
  omega

theorem mem_stored (h : Storable ids) {v : UInt16} : v ∈ stored ids ↔ (v.toNat : Int) ∈ ids := by
  unfold stored
  rw [mem_map]
  constructor
  · rintro ⟨id, hid, rfl⟩
    rw [toNat_stored (h.1 id hid)]
    exact hid
  · intro hv
    refine ⟨_, hv, ?_⟩
    rw [Int.toNat_natCast]
    exact UInt16.ofNat_toNat

theorem zero_notMem_stored (h : Storable ids) : 0 ∉ stored ids := by
  rw [mem_stored h]
  intro hmem
  exact absurd (h.1 _ hmem).1 (by decide)

theorem nodup_stored (h : Storable ids) : (stored ids).Nodup := by
  refine pairwise_map.2 (h.2.imp_of_mem fun {a b} ha hb hne heq => hne ?_)
  rw [← toNat_stored (h.1 a ha), ← toNat_stored (h.1 b hb), heq]

/-- An id is hashed alike when it is placed and when it is looked up. -/
theorem toUInt32_stored {id : Int} (h : 1 ≤ id ∧ id ≤ 65535) : id.toNat.toUInt16.toUInt32 = UInt32.ofInt id := by
  have h16 : id.toNat.toUInt16.toNat = id.toNat := UInt16.toNat_ofNat_of_lt' (by show _ < 65536; omega)
  have h32 : (UInt32.ofInt id).toNat = (id % 2 ^ 32).toNat := UInt32.toNat_ofNat_of_lt' (by show _ < 2 ^ 32; omega)
  apply UInt32.toNat_inj.1
  rw [UInt16.toNat_toUInt32, h16, h32]
  omega

end Stored

/-! ## Lookups -/

/-- Whether a slot holds an id. -/
def Holds (h : MemberHash) (slot : Nat) (id : Int) : Prop :=
  ∃ v, h.slots[slot]? = some v ∧ (v.toNat : Int) = id

/-- The slot that is found for an id is one that holds it. -/
theorem lookup_eq_some {i : Nat} (hl : l < probes) (hi : i = bucket h.multiplier (UInt32.ofInt id) + l)
    (honly : ∀ j, h.Holds j id ↔ j = i) : h.lookup id = some i := by
  unfold lookup
  dsimp only
  cases hfind : List.find? _ _ with
  | none =>
    rw [find?_eq_none] at hfind
    -- the slot is among those looked at, and passes the test
    obtain ⟨v, hv, hid⟩ := (honly i).2 rfl
    have htest := hfind i (mem_map.2 ⟨l, mem_range.2 hl, hi.symm⟩)
    simp [hv, hid] at htest
  | some j =>
    have htest := find?_some hfind
    split at htest
    next v hv => rw [(honly j).1 ⟨v, hv, beq_iff_eq.1 htest⟩]
    next => contradiction

/-- The slot that is found for an id is one of those looked at. -/
theorem exists_probe_of_lookup {i : Nat} (hfound : h.lookup id = some i) :
    ∃ l < probes, i = bucket h.multiplier (UInt32.ofInt id) + l := by
  obtain ⟨l, hl, rfl⟩ := mem_map.1 (mem_of_find?_eq_some hfound)
  exact ⟨l, mem_range.1 hl, rfl⟩

/-- An id that no slot holds is not found. -/
theorem lookup_eq_none (hnone : ∀ j, ¬ h.Holds j id) : h.lookup id = none := by
  unfold lookup
  rw [find?_eq_none]
  intro j _ htest
  apply hnone j
  unfold Holds
  cases hslot : h.slots[j]? with
  | none => simp [hslot] at htest
  | some v => exact ⟨v, rfl, by simpa [hslot] using htest⟩

/-! ## The hash of a list of ids -/

/-- What a hash of member ids has to be. -/
structure Hashes (h : MemberHash) (ids : List Int) : Prop where
  /-- The shift leaves the bits that number the hashed slots. -/
  size_eq : h.size = 2 ^ (32 - h.shift.toNat)
  shift_lt : h.shift.toNat < 32
  two_le_size : 2 ≤ h.size
  length_le_size : ids.length ≤ h.size
  /-- Behind the hashed slots there is room for all probes of the last one. -/
  slots_size : h.slots.size = h.size + probes + 1
  probe_lt : ∀ id : UInt32, ∀ l < probes, bucket h.multiplier id + l < h.slots.size
  /-- Every id stands in one slot only, and is found there. -/
  lookup_mem : ∀ id ∈ ids, ∃ i, h.lookup id = some i ∧ ∀ j, h.Holds j id ↔ j = i
  /-- What is not an id is free. -/
  free : ∀ j id, h.Holds j id → id ∈ ids ∨ id = 0
  lookup_notMem : ∀ id, 1 ≤ id → id ≤ 65535 → id ∉ ids → h.lookup id = none

/-- Placed ids make a hash. -/
theorem hashes_of_placed {prime : UInt32} (hids : Storable ids) (hbits : bits ∈ sizes) (hlen : ids.length ≤ 2 ^ bits)
    (hsize : h.size = 2 ^ bits) (hslots : h.slots.size = 2 ^ bits + probes + 1)
    (hmult : h.multiplier = multiplierOf prime (32 - bits)) (hplaced : Placed h.multiplier (stored ids) h.slots) :
    h.Hashes ids := by
  have hrange := mem_sizes.1 hbits
  have hshift : h.shift.toNat = 32 - bits := by
    unfold shift
    rw [hmult]
    exact toNat_shiftOf_multiplierOf prime (by omega)
  constructor
  case size_eq => rw [hsize, hshift, show 32 - (32 - bits) = bits by omega]
  case shift_lt => omega
  case two_le_size =>
    rw [hsize]
    exact Nat.pow_le_pow_right (n := 2) (by decide) hrange.1
  case length_le_size => rw [hsize]; exact hlen
  case slots_size => rw [hslots, hsize]
  case probe_lt =>
    intro id l hl
    rw [hslots, hmult]
    exact bucket_add_lt prime hbits id hl
  case lookup_mem =>
    intro id hid
    have hin := hids.1 id hid
    obtain ⟨l, hl, honce⟩ := hplaced.once id.toNat.toUInt16 (mem_map.2 ⟨id, hid, rfl⟩)
    rw [toUInt32_stored hin] at honce
    have honly : ∀ j, h.Holds j id ↔ j = bucket h.multiplier (UInt32.ofInt id) + l := by
      intro j
      rw [← honce j]
      constructor
      · rintro ⟨v, hv, rfl⟩
        rw [hv, Int.toNat_natCast]
        exact congrArg some UInt16.ofNat_toNat.symm
      · intro hv
        exact ⟨_, hv, toNat_stored hin⟩
    exact ⟨_, lookup_eq_some hl rfl honly, honly⟩
  case free =>
    rintro j id ⟨v, hv, rfl⟩
    obtain rfl | hmem := hplaced.free j v hv
    · exact .inr rfl
    · exact .inl ((mem_stored hids).1 hmem)
  case lookup_notMem =>
    intro id hpos _ hnot
    refine lookup_eq_none fun j => ?_
    rintro ⟨v, hv, rfl⟩
    obtain rfl | hmem := hplaced.free j v hv
    · exact absurd hpos (by decide)
    · exact hnot ((mem_stored hids).1 hmem)

/-- What is computed for ids is a hash of them. -/
theorem hashes_of_compute (hc : compute ids = .ok h) : h.Hashes ids := by
  obtain ⟨hids, hfind⟩ := compute_eq_ok_iff.1 hc
  obtain ⟨bits, hbits, hbest⟩ := exists_of_findSome?_eq_some hfind
  obtain ⟨hlen, hsize, hslots, ⟨prime, -, hmult⟩, hplaced⟩ :=
    of_bestOfSize (zero_notMem_stored hids) (nodup_stored hids) hbest
  rw [stored, length_map] at hlen
  exact hashes_of_placed hids hbits hlen hsize hslots hmult hplaced

/-- **Hashing of member ids.** The hash of a list of ids finds each of them in its only slot and no other
id; ids that cannot be stored, or that are repeated, are refused; and placing never leaves the table, for
any prime and any size that is tried. -/
theorem compute_hashes (ids : List Int) :
    (∀ h, compute ids = .ok h → h.Hashes ids) ∧
    ((∃ id ∈ ids, id < 1 ∨ 65535 < id) ∨ ¬ ids.Nodup → ∃ f, compute ids = .error f) ∧
    ∀ prime ∈ primes, ∀ bits ∈ sizes, ∀ id ∈ stored ids, ∀ l < probes,
      bucket (multiplierOf prime (32 - bits)) id.toUInt32 + l < 2 ^ bits + probes + 1 := by
  refine ⟨fun h hc => hashes_of_compute hc, ?_, ?_⟩
  · intro hbad
    cases hc : compute ids with
    | error f => exact ⟨f, rfl⟩
    | ok h =>
      obtain ⟨hrange, hnodup⟩ := (compute_eq_ok_iff.1 hc).1
      obtain ⟨id, hid, hout⟩ | hrep := hbad
      · have := hrange id hid
        omega
      · exact absurd hnodup hrep
  · intro prime _ bits hbits id _ l hl
    exact bucket_add_lt prime hbits id.toUInt32 hl

/-- Eight ids for eight hashed slots: the last of them is found two slots behind its bucket, beyond the
hashed ones. -/
theorem compute_hashes_eight : ∃ h, compute [1, 3, 6, 8, 13, 16, 27, 39] = .ok h ∧
    h.size = 8 ∧ bucket h.multiplier 39 = 6 ∧ h.lookup 39 = some 8 ∧
    h.Hashes [1, 3, 6, 8, 13, 16, 27, 39] := by
  have hids : Storable [1, 3, 6, 8, 13, 16, 27, 39] := by unfold Storable; decide
  obtain ⟨h, hfind, hsize, hbucket, hlookup⟩ : ∃ h,
      sizes.findSome? (bestOfSize (stored [1, 3, 6, 8, 13, 16, 27, 39])) = some h ∧
      h.size = 8 ∧ bucket h.multiplier 39 = 6 ∧ h.lookup 39 = some 8 :=
    ⟨_, rfl, rfl, rfl, rfl⟩
  have hc := compute_eq_ok_iff.2 ⟨hids, hfind⟩
  exact ⟨h, hc, hsize, hbucket, hlookup, (compute_hashes [1, 3, 6, 8, 13, 16, 27, 39]).1 h hc⟩

end MemberHash
end Firmware
