import Firmware.Proofs.Dispatch.Placement

/-!
# The search for a hash

Sizes are tried from the smallest one on, and at each size all primes. The search ends at the first size where some
prime places all ids, with the first of the primes that have the fewest collisions there (`compute_isBest`). The shift
goes down by one at every size, also at those that are too small for the ids, so it needs no argument of its own: a
size is its number of bits, and the shift is what is left of 32.
-/

namespace Firmware
namespace MemberHash

open List

variable {h : MemberHash} {ids : List Int} {bits : Nat}

/-- Whether ids are placed in tables of `2 ^ bits` hashed slots. -/
def Tried (ids : List Int) (bits : Nat) : Prop := 2 ≤ 2 ^ bits ∧ 2 ^ bits ≤ largestSize ∧ ids.length ≤ 2 ^ bits

instance (ids : List Int) (bits : Nat) : Decidable (Tried ids bits) := inferInstanceAs (Decidable (_ ∧ _ ∧ _))

/-- The slots that a prime places ids in, and the number of collisions. -/
def placement (ids : List Int) (bits : Nat) (prime : UInt32) : Option (Array UInt16 × Nat) :=
  place (multiplierOf prime (32 - bits)) (stored ids) (Array.replicate (2 ^ bits + probes + 1) 0) 0

/-- Whether a hash is the best one for ids. -/
structure IsBest (h : MemberHash) (ids : List Int) (bits : Nat) : Prop where
  size : h.size = 2 ^ bits
  tried : Tried ids bits
  smallest : ∀ k < bits, Tried ids k → ∀ prime ∈ primes, placement ids k prime = none
  /-- The hash is the placement by a prime. Those in front of it have more collisions, and no other has fewer. -/
  first : ∃ front prime back collisions, primes = front ++ prime :: back ∧
    h.multiplier = multiplierOf prime (32 - bits) ∧ placement ids bits prime = some (h.slots, collisions) ∧
    (∀ q ∈ front, ∀ slots n, placement ids bits q = some (slots, n) → collisions < n) ∧
    ∀ q ∈ back, ∀ slots n, placement ids bits q = some (slots, n) → collisions ≤ n

theorem tried_iff : Tried ids bits ↔ bits ∈ sizes ∧ ids.length ≤ 2 ^ bits := by
  have hlow : 2 ≤ 2 ^ bits ↔ 1 ≤ bits := Nat.pow_le_pow_iff_right (a := 2) (n := 1) (by decide)
  have hhigh : 2 ^ bits ≤ largestSize ↔ bits ≤ 16 := Nat.pow_le_pow_iff_right (a := 2) (m := 16) (by decide)
  rw [mem_sizes, Tried, and_assoc, hlow, hhigh]

/-- The placements by a prime are the candidates at a size. -/
theorem exists_candidate {prime : UInt32} {slots : Array UInt16} {n : Nat}
    (hplace : placement ids bits prime = some (slots, n)) :
    ∃ c : Candidate, candidate (stored ids) (2 ^ bits) (32 - bits) prime = some c ∧ c.collisions = n :=
  ⟨⟨⟨_, slots, _⟩, n⟩, candidate_eq_some.2 ⟨rfl, rfl, hplace⟩, rfl⟩

/-- A size has no hash exactly if no prime places the ids there. -/
theorem bestOfSize_eq_none_iff (hlen : ids.length ≤ 2 ^ bits) :
    bestOfSize (stored ids) bits = none ↔ ∀ prime ∈ primes, placement ids bits prime = none := by
  have hstored : (stored ids).length ≤ 2 ^ bits := by rwa [stored, length_map]
  obtain ⟨best, hwins, heq⟩ := wins_bestOfSize hstored
  rw [heq, Option.map_eq_none_iff]
  cases best with
  | none =>
    refine iff_of_true rfl fun prime hprime => Option.eq_none_iff_forall_ne_some.2 fun r hr => ?_
    obtain ⟨c, hc, -⟩ := exists_candidate hr
    cases (hwins prime hprime).symm.trans hc
  | some c =>
    obtain ⟨front, prime, back, hprimes, hc, -⟩ := hwins
    refine iff_of_false (Option.some_ne_none c) fun hnone => ?_
    have hplace := (candidate_eq_some.1 hc).2.2
    cases (hnone prime (by rw [hprimes]; simp)).symm.trans hplace

/-- The search finds nothing exactly if no prime places the ids in a table of a size that is tried. -/
theorem findSome?_sizes_eq_none_iff : sizes.findSome? (bestOfSize (stored ids)) = none ↔
    ∀ bits, Tried ids bits → ∀ prime ∈ primes, placement ids bits prime = none := by
  rw [findSome?_eq_none_iff]
  constructor
  · intro hnone bits htried
    obtain ⟨hbits, hlen⟩ := tried_iff.1 htried
    exact (bestOfSize_eq_none_iff hlen).1 (hnone bits hbits)
  · intro hnone bits hbits
    by_cases hlen : ids.length ≤ 2 ^ bits
    · exact (bestOfSize_eq_none_iff hlen).2 (hnone bits (tried_iff.2 ⟨hbits, hlen⟩))
    · exact bestOfSize_eq_none (by rw [stored, length_map]; omega)

/-- The sizes in front of the one where the search ends have no hash. -/
theorem bestOfSize_of_lt (hfind : sizes.findSome? (bestOfSize (stored ids)) = some h) :
    ∃ bits ∈ sizes, bestOfSize (stored ids) bits = some h ∧
      ∀ k ∈ sizes, k < bits → bestOfSize (stored ids) k = none := by
  obtain ⟨front, bits, back, hsizes, hbest, hnone⟩ := findSome?_eq_some_iff.1 hfind
  have hup : sizes.Pairwise (· < ·) := by decide
  rw [hsizes] at hup ⊢
  obtain ⟨-, hback, -⟩ := pairwise_append.1 hup
  refine ⟨bits, by simp, hbest, fun k hk hlt => ?_⟩
  obtain hk | hk := mem_append.1 hk
  · exact hnone k hk
  · obtain rfl | hk := mem_cons.1 hk
    · exact absurd hlt (Nat.lt_irrefl _)
    · exact absurd ((pairwise_cons.1 hback).1 k hk) (Nat.lt_asymm hlt)

theorem isBest_of_compute (hc : compute ids = .ok h) : ∃ bits, h.IsBest ids bits := by
  obtain ⟨bits, hbits, hbest, hsmaller⟩ := bestOfSize_of_lt (compute_eq_ok_iff.1 hc).2
  have hlen : (stored ids).length ≤ 2 ^ bits :=
    Nat.le_of_not_lt fun hlong => nomatch (bestOfSize_eq_none hlong).symm.trans hbest
  obtain ⟨best, hwins, heq⟩ := wins_bestOfSize hlen
  obtain ⟨c, rfl, rfl⟩ := Option.map_eq_some_iff.1 (heq.symm.trans hbest)
  obtain ⟨front, prime, back, hprimes, hc, hfront, hback⟩ := hwins
  obtain ⟨hmult, hsize, hplace⟩ := candidate_eq_some.1 hc
  refine ⟨bits, hsize, tried_iff.2 ⟨hbits, by rwa [stored, length_map] at hlen⟩, ?_,
    front, prime, back, c.collisions, hprimes, hmult, hplace, ?_, ?_⟩
  · intro k hlt hk
    obtain ⟨hk, hshort⟩ := tried_iff.1 hk
    exact (bestOfSize_eq_none_iff hshort).1 (hsmaller k hk hlt)
  · rintro q hq slots n hn
    obtain ⟨d, hd, rfl⟩ := exists_candidate hn
    exact hfront q hq d hd
  · rintro q hq slots n hn
    obtain ⟨d, hd, rfl⟩ := exists_candidate hn
    exact hback q hq d hd

theorem compute_eq_error (hids : Storable ids) (hnone : sizes.findSome? (bestOfSize (stored ids)) = none) :
    compute ids = .error (.noMemberHash ids.length largestSize) := by
  have hstored : (ids.map fun id => id.toNat.toUInt16) = stored ids := rfl
  unfold compute
  simp [bind, Except.bind, checkIds_new_eq_ok_iff.2 hids, hstored, hnone, throw, throwThe, MonadExceptOf.throw]

/-- **The search for a hash.** Distinct ids that can be stored have a hash exactly if some prime places them in a table
of some size that is tried. It is then the best one: of the smallest such size, and by the first prime with the fewest
collisions there. Otherwise the failure is a fatal one. -/
theorem compute_isBest (hids : Storable ids) :
    ((∃ h, compute ids = .ok h) ↔ ∃ bits, Tried ids bits ∧ ∃ prime ∈ primes, (placement ids bits prime).isSome) ∧
    (∀ h, compute ids = .ok h → ∃ bits, h.IsBest ids bits) ∧
    ((∀ bits, Tried ids bits → ∀ prime ∈ primes, placement ids bits prime = none) →
      compute ids = .error (.noMemberHash ids.length largestSize)) ∧
    (Failure.noMemberHash ids.length largestSize).report.kind? = some .fatal := by
  refine ⟨⟨?_, ?_⟩, fun h hc => isBest_of_compute hc,
    fun hnone => compute_eq_error hids (findSome?_sizes_eq_none_iff.2 hnone), rfl⟩
  · rintro ⟨h, hc⟩
    obtain ⟨bits, hbest⟩ := isBest_of_compute hc
    obtain ⟨front, prime, back, n, hprimes, -, hplace, -⟩ := hbest.first
    exact ⟨bits, hbest.tried, prime, by rw [hprimes]; simp, by rw [hplace]; rfl⟩
  · rintro ⟨bits, htried, prime, hprime, hplace⟩
    cases hfind : sizes.findSome? (bestOfSize (stored ids)) with
    | some h => exact ⟨h, compute_eq_ok_iff.2 ⟨hids, hfind⟩⟩
    | none =>
      rw [findSome?_sizes_eq_none_iff.1 hfind bits htried prime hprime] at hplace
      exact nomatch hplace

/-- Eight ids that a table of eight hashed slots has room for. -/
theorem compute_isBest_eight : ∃ h bits, compute [1, 3, 6, 8, 13, 16, 27, 39] = .ok h ∧
    h.IsBest [1, 3, 6, 8, 13, 16, 27, 39] bits := by
  have hids : Storable [1, 3, 6, 8, 13, 16, 27, 39] := by unfold Storable; decide
  obtain ⟨hiff, hbest, -⟩ := compute_isBest hids
  obtain ⟨h, hc⟩ := hiff.2 ⟨3, by decide, by decide +kernel⟩
  obtain ⟨bits, hbits⟩ := hbest h hc
  exact ⟨h, bits, hc, hbits⟩

end MemberHash
end Firmware
