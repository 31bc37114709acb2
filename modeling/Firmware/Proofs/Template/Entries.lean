import Firmware.Proofs.Template.Transparency

/-!
# The entries of a cache

What a request does to the entries, whatever the store behind the cache answers. All of it follows from one
observation (`setup_cases`): a request leaves the entries as they are, or makes what it gives the entry of its hash, as
its last step. So there is nothing to undo where reading fails, and a store can do no more than decide which instance
becomes the entry.
-/

namespace Firmware
namespace TemplateCache

open List

variable {σ : Type} {c c' : TemplateCache} {sha key : String} {i : Instance}

/-! ## One entry more -/

theorem put_congr (h : c'.entries = c.entries) : (c'.put sha i).entries = (c.put sha i).entries := by
  unfold put find? size
  rw [h]
  split
  · rfl
  · split <;> rfl

theorem put_of_full (hnew : c.find? sha = none) (hfull : capacity ≤ c.size) : (c.put sha i).entries = [(sha, i)] := by
  rw [put, hnew, if_neg (by decide), if_pos hfull]

/-- A new entry counts one more, unless the cache was full. -/
theorem size_put_le (h : c.size ≤ capacity) : (c.put sha i).size ≤ capacity := by
  unfold put
  split
  · exact (length_map _).trans_le h
  · split
    · exact (by decide : 1 ≤ capacity)
    · next hroom =>
      show (c.entries ++ [(sha, i)]).length ≤ capacity
      rw [length_append]
      exact Nat.lt_of_not_le hroom

theorem find?_put_of_ne (hkey : key ≠ sha) (hroom : ¬(c.find? sha = none ∧ capacity ≤ c.size)) :
    (c.put sha i).find? key = c.find? key := by
  unfold put
  split
  · show lookup key (c.entries.map _) = _
    rw [lookup_map_replace, if_neg hkey]
    rfl
  next hnew =>
    rw [if_neg fun hfull => hroom ⟨Option.not_isSome_iff_eq_none.1 hnew, hfull⟩]
    show lookup key (c.entries ++ _) = _
    rw [lookup_append, lookup_cons_of_ne hkey, lookup_nil, Option.or_none]
    rfl

/-! ## Requests -/

theorem target_of_loadStored (access : StoreAccess σ) (t : Target) (sha : String) (s : σ) (i : Instance)
    (h : (loadStored access t sha s).1 = some i) : i.template.target = t := by
  unfold loadStored at h
  split at h
  · dsimp only at h
    split at h
    next htarget =>
      obtain rfl := Option.some.inj h
      exact beq_iff_eq.1 htarget
    next => cases h
  · cases h

/-- What a request does to the entries: nothing, or its last step makes an entry of what it gives. -/
theorem setup_cases (store : Option (StoreAccess σ)) (t : Target) (e : Extension) (c : TemplateCache) (s : σ) :
    ((setup store t e c s).2.1.entries = c.entries ∧ (e.sha.isEmpty = false → ∀ i, (setup store t e c s).1 = .ok i →
      c.find? e.sha = some i ∧ i.template.target = t)) ∨
    e.sha.isEmpty = false ∧ ∃ (i : Instance) (c₁ : TemplateCache), (setup store t e c s).1 = .ok i ∧
      i.template.target = t ∧ c₁.entries = c.entries ∧ (setup store t e c s).2.1 = c₁.put e.sha i := by
  unfold setup
  split
  next hsha =>
    refine .inl ⟨?_, fun hnamed => absurd (hsha.symm.trans hnamed) (by decide)⟩
    obtain ⟨f, -, hread⟩ | ⟨i, -, hread⟩ := read_eq c t e <;> rw [hread]
  next hsha =>
    have hsha : e.sha.isEmpty = false := by simpa using hsha
    split
    next i hfind =>
      obtain ⟨hfind, htarget⟩ := Option.filter_eq_some_iff.1 hfind
      refine .inl ⟨rfl, fun _ j hj => ?_⟩
      obtain rfl := Except.ok.inj hj
      exact ⟨hfind, beq_iff_eq.1 htarget⟩
    next =>
      cases store with
      | none =>
        obtain ⟨f, -, hread⟩ | ⟨i, hparse, hread⟩ := read_eq c t e <;> dsimp only <;> rw [hread]
        · exact .inl ⟨rfl, fun _ j hj => by cases hj⟩
        · exact .inr ⟨hsha, i, { c with reads := c.reads + 1 }, rfl, (Template.sha_target_of_parse hparse).2, rfl, rfl⟩
      | some access =>
        have hstored := target_of_loadStored access t e.sha s
        dsimp only
        generalize loadStored access t e.sha s = loaded at hstored
        obtain ⟨_ | i, s'⟩ := loaded
        · obtain ⟨f, -, hread⟩ | ⟨i, hparse, hread⟩ := read_eq c t e <;> dsimp only <;> rw [hread]
          · exact .inl ⟨rfl, fun _ j hj => by cases hj⟩
          · exact .inr ⟨hsha, i, { c with reads := c.reads + 1 }, rfl, (Template.sha_target_of_parse hparse).2, rfl, rfl⟩
        · exact .inr ⟨hsha, i, c, rfl, hstored i rfl, rfl, rfl⟩

/-- What a request with the answer `r` makes of the cache `c`, and what the same request is answered then. A store that
is asked for nothing could be any store. -/
structure Leaves (t : Target) (e : Extension) (c : TemplateCache) (r : Except Failure Instance) (c' : TemplateCache) :
    Prop where
  size : c'.size ≤ capacity
  failed : ∀ f, r = .error f → c'.entries = c.entries
  unnamed : e.sha = "" → c'.entries = c.entries
  entry : ∀ i, r = .ok i → e.sha ≠ "" → c'.find? e.sha = some i ∧ i.template.target = t
  cleared : ∀ i, r = .ok i → e.sha ≠ "" → c.find? e.sha = none → c.size = capacity → c'.entries = [(e.sha, i)]
  others : ∀ i, r = .ok i → e.sha ≠ "" → ¬(c.find? e.sha = none ∧ c.size = capacity) →
    ∀ sha, sha ≠ e.sha → c'.find? sha = c.find? sha
  again : ∀ i, r = .ok i → e.sha ≠ "" →
    ∀ (τ : Type) (other : Option (StoreAccess τ)) (s : τ), setup other t e c' s = (.ok i, c', s)

theorem leaves_setup (store : Option (StoreAccess σ)) (t : Target) (e : Extension) (s : σ) (h : c.size ≤ capacity) :
    Leaves t e c (setup store t e c s).1 (setup store t e c s).2.1 := by
  have hagain : ∀ {c' : TemplateCache} {i : Instance}, e.sha.isEmpty = false → c'.find? e.sha = some i →
      i.template.target = t → ∀ (τ : Type) (other : Option (StoreAccess τ)) (s : τ),
      setup other t e c' s = (.ok i, c', s) := fun hsha hfind htarget _ other s => setup_of_find? other s hsha hfind htarget
  have hnamed : e.sha ≠ "" → e.sha.isEmpty = false := by simp
  have hfind : ∀ {c' : TemplateCache}, c'.entries = c.entries → c'.find? = c.find? := fun heq => by unfold find?; rw [heq]
  obtain ⟨hentries, hcached⟩ | ⟨hsha, i, c₁, hr, htarget, hentries, hput⟩ := setup_cases store t e c s
  · have hsame := hfind hentries
    refine ⟨?_, fun _ _ => hentries, fun _ => hentries, fun i hi hne => ?_, fun i hi hne hnone => ?_,
      fun _ _ _ _ sha _ => by rw [hsame], fun i hi hne => ?_⟩
    · rwa [size, hentries]
    · rw [hsame]
      exact hcached (hnamed hne) i hi
    · exact nomatch hnone.symm.trans (hcached (hnamed hne) i hi).1
    · obtain ⟨hold, htarget⟩ := hcached (hnamed hne) i hi
      exact hagain (hnamed hne) (by rwa [hsame]) htarget
  · have hput' : (setup store t e c s).2.1.entries = (c.put e.sha i).entries := by rw [hput, put_congr hentries]
    have hfound : (setup store t e c s).2.1.find? e.sha = some i := by rw [hput, find?_put_self]
    have hi : ∀ j, (setup store t e c s).1 = .ok j → j = i := fun j hj => Except.ok.inj (hj.symm.trans hr)
    refine ⟨?_, fun f hf => ?_, fun hempty => ?_, fun j hj _ => ?_, fun j hj _ hnone hfull => ?_,
      fun _ _ _ hroom sha hne => ?_, fun j hj _ => ?_⟩
    · rw [size, hput']
      exact size_put_le h
    · exact nomatch hf.symm.trans hr
    · rw [hempty] at hsha
      exact absurd hsha (by decide)
    · rw [hi j hj]
      exact ⟨hfound, htarget⟩
    · rw [hput', hi j hj, put_of_full hnone hfull.ge]
    · rw [find?, hput']
      exact find?_put_of_ne hne fun hfull => hroom ⟨hfull.1, Nat.le_antisymm h hfull.2⟩
    · rw [hi j hj]
      exact hagain hsha hfound htarget

/-- The cache and the state of the store after requests. -/
def after (store : Option (StoreAccess σ)) (calls : List (Target × Extension)) (s : σ) : TemplateCache × σ :=
  calls.foldl (fun state q => (setup store q.1 q.2 state.1 state.2).2) ({}, s)

theorem size_after_le (store : Option (StoreAccess σ)) (calls : List (Target × Extension)) (s : σ) :
    (after store calls s).1.size ≤ capacity := by
  -- on the requests, from the first one on
  have hrun : ∀ state : TemplateCache × σ, state.1.size ≤ capacity →
      (calls.foldl (fun state q => (setup store q.1 q.2 state.1 state.2).2) state).1.size ≤ capacity := by
    induction calls with
    | nil => exact fun _ h => h
    | cons q rest ih => exact fun state h => ih _ (leaves_setup store q.1 q.2 state.2 h).size
  exact hrun ({}, s) (Nat.zero_le _)

/-- **The entries of a cache.** Whatever a store answers and whatever was asked for since the cache was new: there are at
most ten entries, and one more request leaves what `Leaves` says. -/
theorem leaves_after (store : Option (StoreAccess σ)) (calls : List (Target × Extension)) (s : σ) (t : Target)
    (e : Extension) : (after store calls s).1.size ≤ 10 ∧
      Leaves t e (after store calls s).1 (setup store t e (after store calls s).1 (after store calls s).2).1
        (after store (calls ++ [(t, e)]) s).1 := by
  have hsize := size_after_le store calls s
  have hlast : after store (calls ++ [(t, e)]) s =
      (setup store t e (after store calls s).1 (after store calls s).2).2 := foldl_append
  rw [hlast]
  exact ⟨hsize, leaves_setup store t e _ hsize⟩

end TemplateCache
end Firmware
