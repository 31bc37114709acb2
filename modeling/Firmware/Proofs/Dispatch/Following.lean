import Firmware.Dispatch.ClassTable
import Firmware.Proofs.Dispatch.Placement
import Mathlib.Data.List.Perm.Basic

/-!
# Following interface tables

A runtime that looks for an interface member has three things of the assembly: the multiplier, the buckets and the
entries behind them. It adds the distance in a bucket to the position of the bucket and compares the id that stands
there. `render_dispatches` says that this leads to the first descriptor of the member, and to nothing for an id that no
member has.

Three computations have to agree for that: the places of the ids in the hash, the offsets of the descriptors, which grow
by one or two entries for each member, and the distances. A free bucket does not lead to the terminator but to the
first entry (`follow?_free`), so a lookup may pass a descriptor that was not put into its bucket. This does no harm:
whatever entry is reached, a descriptor that starts there is the first one of its member.
-/

open List

namespace Firmware
namespace InterfaceTable

open MemberHash (probes)

/-! ## What a runtime does -/

/-- The entry that starts at an offset in bytes, counted from the first bucket: the number of a descriptor, or that
of the terminator behind all of them. -/
def entryAt? (t : InterfaceTable) (offset : Int) : Option Nat :=
  let inside := offset - (2 * t.buckets.length : Nat)
  if 0 ≤ inside ∧ inside % descriptorSize = 0 ∧ inside / descriptorSize ≤ t.descriptors.length then
    some (inside / descriptorSize).toNat
  else none

/-- The entry that a bucket leads to. -/
def follow? (t : InterfaceTable) (i : Nat) : Option Nat :=
  t.buckets[i]?.bind fun distance => t.entryAt? (distance + (2 * i : Nat))

/-- The id in an entry. The terminator holds zeros. -/
def idOf (t : InterfaceTable) (entry : Nat) : Int := (t.descriptors[entry]?.map (·.id)).getD 0

/-- The first bucket to look at, with the multiplier as it is written in the assembly. -/
def firstBucket (word id : Int) : Nat := MemberHash.bucket (UInt32.ofInt word) (UInt32.ofInt id)

/-- The first entry with an id among those that the buckets for this id lead to. -/
def dispatch? (t : InterfaceTable) (word id : Int) : Option Nat :=
  (List.range probes).findSome? fun l =>
    (t.follow? (firstBucket word id + l)).filter fun entry => t.idOf entry == id

/-- Whether assembly has a multiplier and a table in it, the table behind its label at the end. -/
def StandsIn (t : InterfaceTable) (word : Int) (label text : String) : Prop :=
  ∃ front between : String,
    text = front ++ "        .word " ++ Numeral.decimal word ++ " ; hash-mult\n" ++ between ++
      label ++ "_IfaceVT:\n" ++
      ("  .short " ++ String.intercalate ", " (t.buckets.map Numeral.decimal) ++ "\n" ++
        String.join (t.descriptors.map renderDescriptor) ++ "  .word 0, 0 ; the end\n") ++ "\n"

/-- Whether the descriptors of a member start at an entry: those of the members in front of it come first. -/
def StartsAt (members : List InterfaceMember) (m : InterfaceMember) (entry : Nat) : Prop :=
  ∃ before after, members = before ++ m :: after ∧ entry = (before.flatMap memberDescriptors).length

/-- The descriptor that stands for a member. -/
def getter (m : InterfaceMember) : Descriptor :=
  ⟨m.id, m.info, if m.procedure.isEmpty then Numeral.decimal m.info else functionPointer m.procedure, m.name⟩

/-- The descriptor of its setter. -/
def setterOf (m : InterfaceMember) : Descriptor := ⟨m.id, 0, functionPointer m.setter, "set " ++ m.name⟩

/-- Whether a runtime that follows a table gets to the members, for all ids that a member can have. -/
structure Dispatches (t : InterfaceTable) (word : Int) (members : List InterfaceMember) : Prop where
  /-- The buckets that are looked at lead to descriptors or to the terminator. -/
  probe : ∀ id, 1 ≤ id → id ≤ 65535 → ∀ l < probes, ∃ entry ≤ t.descriptors.length,
    t.follow? (firstBucket word id + l) = some entry
  /-- What is found is the first descriptor of a member with the id, and that of its setter follows. -/
  first : ∀ id, 1 ≤ id → id ≤ 65535 → ∀ entry, t.dispatch? word id = some entry →
    ∃ m, StartsAt members m entry ∧ m.id = id ∧ t.descriptors[entry]? = some (getter m) ∧
      (m.setter.isEmpty = false → t.descriptors[entry + 1]? = some (setterOf m))
  /-- Something is found for the ids of the members only. -/
  found_iff : ∀ id, 1 ≤ id → id ≤ 65535 → ((t.dispatch? word id).isSome ↔ id ∈ members.map (·.id))

/-! ## Descriptors -/

section Descriptors

variable {members : List InterfaceMember} {m : InterfaceMember} {entry : Nat}

theorem memberDescriptors_eq (m : InterfaceMember) :
    memberDescriptors m = getter m :: if m.setter.isEmpty then [] else [setterOf m] := by
  unfold memberDescriptors getter setterOf
  dsimp only
  by_cases hset : m.setter.isEmpty = true
  · rw [if_pos hset, if_pos hset]
  · rw [if_neg hset, if_neg hset]

theorem exists_startsAt (h : m ∈ members) : ∃ entry, StartsAt members m entry := by
  obtain ⟨before, after, hsplit⟩ := append_of_mem h
  exact ⟨_, before, after, hsplit, rfl⟩

section

variable (h : StartsAt members m entry)
include h

theorem StartsAt.mem : m ∈ members := by
  obtain ⟨before, after, rfl, -⟩ := h
  simp

/-- The descriptors of a member stand from its entry on. -/
theorem StartsAt.drop : ∃ rest, (members.flatMap memberDescriptors).drop entry = memberDescriptors m ++ rest := by
  obtain ⟨before, after, rfl, rfl⟩ := h
  exact ⟨after.flatMap memberDescriptors, by simp [flatMap_append]⟩

theorem StartsAt.getElem?_getter : (members.flatMap memberDescriptors)[entry]? = some (getter m) := by
  obtain ⟨rest, hrest⟩ := h.drop
  rw [← Nat.add_zero entry, ← getElem?_drop, hrest, memberDescriptors_eq]
  rfl

theorem StartsAt.getElem?_setter (hset : m.setter.isEmpty = false) :
    (members.flatMap memberDescriptors)[entry + 1]? = some (setterOf m) := by
  obtain ⟨rest, hrest⟩ := h.drop
  rw [← getElem?_drop, hrest, memberDescriptors_eq, hset]
  rfl

end

/-- Where ids differ, a member has one place only. -/
theorem StartsAt.unique (hnodup : (members.map (·.id)).Nodup) {m' : InterfaceMember} {entry' : Nat}
    (h : StartsAt members m entry) (h' : StartsAt members m' entry') (hid : m.id = m'.id) : entry = entry' := by
  obtain ⟨before, after, hsplit, rfl⟩ := h
  obtain ⟨before', after', hsplit', rfl⟩ := h'
  -- both parts in front of the member are as long as the place of its id in the list of ids
  have hlength : ∀ {front back : List InterfaceMember} {x : InterfaceMember}, members = front ++ x :: back →
      front = members.take ((members.map (·.id)).idxOf x.id) := by
    rintro front back x rfl
    have hnot : x.id ∉ front.map (·.id) := by
      rw [map_append, map_cons] at hnodup
      exact fun hmem => (nodup_append.1 hnodup).2.2 _ hmem _ (mem_cons_self ..) rfl
    rw [map_append, idxOf_append_of_notMem hnot, map_cons, idxOf_cons_self]
    simp
  rw [hlength hsplit, hlength hsplit', hid]

/-- The offsets of the members: descriptors follow each other without a gap. -/
theorem mem_offsetsFrom {start : Nat} {id : Int} {offset : Nat} : (id, offset) ∈ offsetsFrom start members ↔
      ∃ m entry, StartsAt members m entry ∧ m.id = id ∧ offset = start + descriptorSize * entry := by
  induction members generalizing start with
  | nil => simp [offsetsFrom, StartsAt]
  | cons m rest ih =>
    rw [offsetsFrom, mem_cons, ih]
    constructor
    · rintro (heq | ⟨m', entry, ⟨before, after, rfl, rfl⟩, rfl, rfl⟩)
      · obtain ⟨rfl, rfl⟩ := Prod.mk.inj heq
        exact ⟨m, 0, ⟨[], rest, rfl, rfl⟩, rfl, rfl⟩
      · refine ⟨m', _, ⟨m :: before, after, rfl, rfl⟩, rfl, ?_⟩
        rw [flatMap_cons, length_append, Nat.mul_add, Nat.add_assoc]
    · rintro ⟨m', entry, ⟨before, after, hsplit, rfl⟩, rfl, rfl⟩
      cases before with
      | nil =>
        obtain ⟨rfl, -⟩ := List.cons.inj hsplit
        exact .inl rfl
      | cons x before =>
        obtain ⟨rfl, rfl⟩ := List.cons.inj hsplit
        refine .inr ⟨m', _, ⟨before, after, rfl, rfl⟩, rfl, ?_⟩
        rw [flatMap_cons, length_append, Nat.mul_add, Nat.add_assoc]

/-- An entry that starts with the descriptors of a member is within the area of descriptors. -/
theorem StartsAt.le (h : StartsAt members m entry) : entry ≤ (members.flatMap memberDescriptors).length := by
  obtain ⟨before, after, rfl, rfl⟩ := h
  simp [flatMap_append]

end Descriptors

/-! ## Buckets -/

section Buckets

variable {members : List InterfaceMember} {hash : MemberHash} {i : Nat} {v : UInt16}

@[simp] theorem length_buckets_build (members : List InterfaceMember) (hash : MemberHash) :
    (build members hash).buckets.length = hash.slots.size := by
  simp [build]

@[simp] theorem descriptors_build (members : List InterfaceMember) (hash : MemberHash) :
    (build members hash).descriptors = members.flatMap memberDescriptors := rfl

/-- Entries have one size and stand behind the buckets. -/
theorem entryAt?_build {entry : Nat} (h : entry ≤ (members.flatMap memberDescriptors).length) :
    (build members hash).entryAt? (hash.slots.size * 2 + descriptorSize * entry : Nat) = some entry := by
  have hsize : descriptorSize = 8 := rfl
  unfold entryAt?
  simp only [length_buckets_build, descriptors_build, hsize]
  rw [if_pos (by omega)]
  congr 1
  omega

/-- A bucket leads to the entry whose offset was put into it, whatever its own position is. -/
theorem follow?_build {offset entry : Nat} (hslot : hash.slots[i]? = some v)
    (hdistance : distance (hash.slots.size * 2) (offsetsFrom (hash.slots.size * 2) members) i v =
      (offset : Int) - (i * 2 : Nat))
    (hoffset : offset = hash.slots.size * 2 + descriptorSize * entry)
    (hentry : entry ≤ (members.flatMap memberDescriptors).length) :
    (build members hash).follow? i = some entry := by
  have hbucket : (build members hash).buckets[i]? = some ((offset : Int) - (i * 2 : Nat)) := by
    show (hash.slots.toList.mapIdx _)[i]? = _
    rw [getElem?_mapIdx, Array.getElem?_toList, hslot, Option.map_some, hdistance]
  unfold follow?
  rw [hbucket, Option.bind_some, show (offset : Int) - (i * 2 : Nat) + (2 * i : Nat) = offset by omega, hoffset]
  exact entryAt?_build hentry

/-- A free bucket leads to the first entry, whatever stands there. -/
theorem follow?_free (hslot : hash.slots[i]? = some 0) : (build members hash).follow? i = some 0 :=
  follow?_build hslot rfl rfl (Nat.zero_le _)

/-- A bucket with an id leads to the descriptors of the member. -/
theorem follow?_taken (hnodup : (members.map (·.id)).Nodup) (hslot : hash.slots[i]? = some v) (hv : v ≠ 0)
    {m : InterfaceMember} {entry : Nat} (h : StartsAt members m entry) (hid : m.id = v.toNat) :
    (build members hash).follow? i = some entry := by
  refine follow?_build hslot ?_ rfl h.le
  unfold distance
  dsimp only
  rw [if_neg (by simpa using hv)]
  cases hfind : (offsetsFrom (hash.slots.size * 2) members).reverse.find? fun o => o.1 == (v.toNat : Int) with
  | none =>
    -- the member has an offset, so one is found
    have hmem : (m.id, hash.slots.size * 2 + descriptorSize * entry) ∈
        (offsetsFrom (hash.slots.size * 2) members).reverse :=
      mem_reverse.2 (mem_offsetsFrom.2 ⟨m, entry, h, rfl, rfl⟩)
    simpa [hid] using find?_eq_none.1 hfind _ hmem
  | some o =>
    have htest : o.1 = v.toNat := by simpa using find?_some hfind
    -- and every offset for the id is that of the member
    obtain ⟨m', entry', h', hid', hoffset⟩ := mem_offsetsFrom.1 (mem_reverse.1 (mem_of_find?_eq_some hfind))
    have hsame : entry' = entry := h'.unique hnodup h (by omega)
    rw [Option.map_some, Option.getD_some, hoffset, hsame]

end Buckets

/-! ## Dispatch -/

section Dispatch

variable {members : List InterfaceMember} {hash : MemberHash}

theorem idOf_build (entry : Nat) :
    (build members hash).idOf entry = ((members.flatMap memberDescriptors)[entry]?.map (·.id)).getD 0 := rfl

theorem StartsAt.idOf {m : InterfaceMember} {entry : Nat} (h : StartsAt members m entry) :
    (build members hash).idOf entry = m.id := by
  rw [idOf_build, h.getElem?_getter]
  rfl

/-- What a bucket leads to: an entry, and where its id is that of an interface member, the first descriptor of one. -/
theorem follow?_spec (h : hash.Hashes (members.map (·.id))) (hids : MemberHash.Storable (members.map (·.id)))
    {i : Nat} (hi : i < hash.slots.size) :
    ∃ entry ≤ (build members hash).descriptors.length, (build members hash).follow? i = some entry ∧
      (1 ≤ (build members hash).idOf entry → ∃ m, StartsAt members m entry) := by
  by_cases hzero : hash.slots[i] = 0
  · refine ⟨0, Nat.zero_le _, follow?_free (by simp [hi, hzero]), ?_⟩
    -- the first entry belongs to the first member, or is the terminator
    cases members with
    | nil => simp [idOf_build]
    | cons m rest => exact fun _ => ⟨m, [], rest, rfl, rfl⟩
  · have hslot : hash.slots[i]? = some hash.slots[i] := Array.getElem?_eq_getElem hi
    obtain hmem | h0 := h.free i _ ⟨_, hslot, rfl⟩
    · obtain ⟨m, hm, hid⟩ := mem_map.1 hmem
      obtain ⟨entry, hstart⟩ := exists_startsAt hm
      exact ⟨entry, hstart.le, follow?_taken hids.2 hslot hzero hstart hid, fun _ => ⟨m, hstart⟩⟩
    · exact absurd (UInt16.toNat_inj.1 (by simpa using h0)) hzero

/-- The multiplier that is written as a signed word is read back. -/
theorem ofInt_toInt32 (multiplier : UInt32) : UInt32.ofInt multiplier.toInt32.toInt = multiplier := by
  have hlt := multiplier.toNat_lt
  have hsigned : multiplier.toInt32.toInt =
      if 2 * multiplier.toNat < 2 ^ 32 then (multiplier.toNat : Int) else multiplier.toNat - 2 ^ 32 :=
    BitVec.toInt_eq_toNat_cond multiplier.toBitVec
  have hmod : (multiplier.toInt32.toInt % 2 ^ 32).toNat = multiplier.toNat := by
    rw [hsigned]
    split <;> omega
  unfold UInt32.ofInt
  rw [hmod]
  exact UInt32.ofNat_toNat

section

variable (h : hash.Hashes (members.map (·.id))) (hids : MemberHash.Storable (members.map (·.id)))
  {word : Int} (hword : UInt32.ofInt word = hash.multiplier)

include h hids hword

/-- All buckets that are looked at lead to entries. -/
theorem follow?_probe (id : Int) {l : Nat} (hl : l < probes) : ∃ entry ≤ (build members hash).descriptors.length,
      (build members hash).follow? (firstBucket word id + l) = some entry ∧
      (1 ≤ (build members hash).idOf entry → ∃ m, StartsAt members m entry) := by
  apply follow?_spec h hids
  unfold firstBucket
  rw [hword]
  exact h.probe_lt _ l hl

/-- An entry that is found is the first one of a member with the id. -/
theorem of_dispatch? {id : Int} (hid : 1 ≤ id) {entry : Nat}
    (hfound : (build members hash).dispatch? word id = some entry) : ∃ m, StartsAt members m entry ∧ m.id = id := by
  obtain ⟨l, hl, htest⟩ := exists_of_findSome?_eq_some hfound
  obtain ⟨hfollow, hsame⟩ := Option.filter_eq_some_iff.1 htest
  have hsame : (build members hash).idOf entry = id := by simpa using hsame
  obtain ⟨entry', -, hentry', hstart⟩ := follow?_probe h hids hword id (mem_range.1 hl)
  obtain rfl := Option.some.inj (hfollow.symm.trans hentry')
  obtain ⟨m, hm⟩ := hstart (by omega)
  exact ⟨m, hm, hm.idOf.symm.trans hsame⟩

/-- An entry is found for the id of every member. -/
theorem exists_dispatch? {m : InterfaceMember} (hm : m ∈ members) :
    ∃ entry, (build members hash).dispatch? word m.id = some entry := by
  have hmem : m.id ∈ members.map (·.id) := mem_map_of_mem hm
  obtain ⟨i, hlookup, hholds⟩ := h.lookup_mem m.id hmem
  obtain ⟨l, hl, rfl⟩ := MemberHash.exists_probe_of_lookup hlookup
  obtain ⟨v, hslot, hv⟩ := (hholds _).2 rfl
  obtain ⟨entry, hstart⟩ := exists_startsAt hm
  have hpos := (hids.1 m.id hmem).1
  have hne : v ≠ 0 := by
    rintro rfl
    exact absurd hv (by show ((0 : Nat) : Int) ≠ _; omega)
  have hfollow := follow?_taken hids.2 hslot hne hstart hv.symm
  rw [← Option.isSome_iff_exists]
  unfold dispatch?
  rw [findSome?_isSome_iff]
  refine ⟨l, mem_range.2 hl, ?_⟩
  unfold firstBucket
  rw [hword, hfollow]
  simp [hstart.idOf]

/-- A table that was built for members leads to them. -/
theorem dispatches_build : (build members hash).Dispatches word members where
  probe := by
    intro id _ _ l hl
    obtain ⟨entry, hle, hfollow, -⟩ := follow?_probe h hids hword id hl
    exact ⟨entry, hle, hfollow⟩
  first := by
    intro id hid _ entry hfound
    obtain ⟨m, hstart, rfl⟩ := of_dispatch? h hids hword hid hfound
    exact ⟨m, hstart, rfl, hstart.getElem?_getter, hstart.getElem?_setter⟩
  found_iff := by
    intro id hid _
    constructor
    · intro hsome
      obtain ⟨entry, hfound⟩ := Option.isSome_iff_exists.1 hsome
      obtain ⟨m, hstart, rfl⟩ := of_dispatch? h hids hword hid hfound
      exact mem_map_of_mem hstart.mem
    · intro hmem
      obtain ⟨m, hm, rfl⟩ := mem_map.1 hmem
      exact Option.isSome_iff_exists.2 (exists_dispatch? h hids hword hm)

end

end Dispatch
end InterfaceTable

/-! ## Counts -/

/-- As many slots are taken as there are ids. -/
theorem MemberHash.Hashes.length_taken {hash : MemberHash} {ids : List Int} (h : hash.Hashes ids)
    (hids : MemberHash.Storable ids) : (hash.slots.toList.filter (· != 0)).length = ids.length := by
  have hslot : ∀ {j : Nat} (hj : j < hash.slots.toList.length),
      hash.slots[j]? = some (hash.slots.toList[j]) := fun _ => by simp
  -- an id that two slots hold is free
  have hpairwise : hash.slots.toList.Pairwise fun a b => a ≠ 0 → a ≠ b := by
    rw [pairwise_iff_getElem]
    intro i j hi hj hij hne heq
    obtain hmem | h0 := h.free i _ ⟨_, hslot hi, rfl⟩
    · obtain ⟨k, -, honly⟩ := h.lookup_mem _ hmem
      have hik := (honly i).1 ⟨_, hslot hi, rfl⟩
      have hjk := (honly j).1 ⟨_, hslot hj, by rw [heq]⟩
      omega
    · exact hne (UInt16.toNat_inj.1 (by simpa using h0))
  have hnodup : (hash.slots.toList.filter (· != 0)).Nodup := by
    refine List.Pairwise.imp_of_mem ?_ (hpairwise.filter _)
    intro a b ha _ hab
    exact hab (by simpa using (mem_filter.1 ha).2)
  have hperm : (hash.slots.toList.filter (· != 0)).Perm (MemberHash.stored ids) := by
    rw [perm_ext_iff_of_nodup hnodup (MemberHash.nodup_stored hids)]
    intro v
    rw [mem_filter, MemberHash.mem_stored hids]
    constructor
    · rintro ⟨hv, hne⟩
      obtain ⟨j, hj, rfl⟩ := getElem_of_mem hv
      obtain hmem | h0 := h.free j _ ⟨_, hslot hj, rfl⟩
      · exact hmem
      · have hzero : hash.slots.toList[j] = 0 := UInt16.toNat_inj.1 (by simpa using h0)
        simp [hzero] at hne
    · intro hv
      obtain ⟨k, -, honly⟩ := h.lookup_mem _ hv
      obtain ⟨w, hw, hwv⟩ := (honly k).2 rfl
      obtain rfl : w = v := UInt16.toNat_inj.1 (by omega)
      refine ⟨Array.mem_toList_iff.2 (Array.mem_of_getElem? hw), ?_⟩
      have hpos := (hids.1 _ hv).1
      simp only [bne_iff_ne, ne_eq]
      rintro rfl
      exact absurd hpos (by decide)
  rw [hperm.length_eq, MemberHash.stored, length_map]

namespace ClassInfo

open InterfaceTable MemberHash

/-- What the tables of a class are made of. -/
theorem of_render {c : ClassInfo} {o : TableOptions} {text : String} {stats : TableStats}
    (h : c.render o = .ok (text, stats)) :
    ∃ hash, compute (c.members.map (·.id)) = .ok hash ∧
      (build c.members hash).StandsIn hash.multiplier.toInt32.toInt c.id text ∧
      stats = (build c.members hash).stats := by
  unfold render interfaceTable at h
  cases hc : compute (c.members.map (·.id)) with
  | error f =>
    rw [hc] at h
    exact nomatch h
  | ok hash =>
    rw [hc] at h
    obtain ⟨rfl, rfl⟩ := Prod.mk.inj (Except.ok.inj h)
    let pointer := if o.shortPointers then ".short" else ".word"
    let between := String.join ((c.methodPointers o.gc).map fun name =>
        "        " ++ pointer ++ " " ++ (if name == "0" then name else functionPointer name) ++ "\n") ++
      "\n        .balign " ++ (if o.shortPointers then "2" else "4") ++ "\n"
    refine ⟨hash, rfl, ?_, rfl⟩
    unfold StandsIn
    rw [← InterfaceTable.render]
    apply Exists.intro
    apply Exists.intro between
    simp only [between, ← String.append_assoc]
    rfl

/-- A class has tables if its members have a hash. -/
theorem exists_render {c : ClassInfo} {hash : MemberHash} (h : compute (c.members.map (·.id)) = .ok hash)
    (o : TableOptions) : ∃ text stats, c.render o = .ok (text, stats) := by
  unfold render interfaceTable
  rw [h]
  exact ⟨_, _, rfl⟩

/-- A class with a property that can be set and a method behind it. -/
def propertyClass : ClassInfo where
  id := "Foo"
  classNo := 17
  fieldCount := 2
  toStringLabel := ""
  methods := ["Foo_run__P4"]
  members :=
    [⟨5, "value", 1, "Foo_value__P5_args", "Foo_setValue__P6_args"⟩, ⟨9, "show", 2, "Foo_show__P7_args", ""⟩]

end ClassInfo
end Firmware
