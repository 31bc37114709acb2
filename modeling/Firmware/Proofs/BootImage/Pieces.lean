import Firmware.Proofs.BootImage.RoundTrip

/-!
# Pieces in a file

The file of an image is a row of pieces, each behind a head with its address and the length of its data. `Lays` says
which pieces a layout puts where: the mapped segments in their order and in one piece, each where it stands right, and
among them zeros and the loose segments, some of them in parts. Whoever goes from head to head comes by all of them
(`walk_flatMap_encode`). The main statement, `serialize_layout`, says what a body holds from its first head to its last
byte.
-/

namespace Firmware
namespace BootImage

open List

variable {offset : Nat} {s : Segment} {laid segments : List Segment}

/-! ## Layouts as rows of pieces -/

namespace Layout

/-- The pieces that mapped and loose segments come to from an offset on, in the order of the file. -/
inductive Lays : Nat → List Segment → List Segment → List Segment → Prop
  | rest (offset : Nat) (loose : List Segment) : Lays offset [] loose loose
  | place {offset : Nat} {s : Segment} {mapped loose pieces : List Segment}
      (hright : (offset + segmentHeadSize) % pageSize = s.address.toNat % pageSize)
      (h : Lays (offset + segmentHeadSize + s.data.length) mapped loose pieces) :
      Lays offset (s :: mapped) loose (s :: pieces)
  | zeros {offset n : Nat} {mapped loose pieces : List Segment} (hn : n < 2 * pageSize)
      (h : Lays (offset + segmentHeadSize + n) mapped loose pieces) :
      Lays offset mapped loose (.zeros n :: pieces)
  | whole {offset : Nat} {first : Segment} {mapped loose pieces : List Segment}
      (h : Lays (offset + segmentHeadSize + first.data.length) mapped loose pieces) :
      Lays offset mapped (first :: loose) (first :: pieces)
  | start {offset n : Nat} {first : Segment} {mapped loose pieces : List Segment} (hn : n < first.data.length)
      (h : Lays (offset + segmentHeadSize + n) mapped (first.back n :: loose) pieces) :
      Lays offset mapped (first :: loose) (first.front n :: pieces)

theorem paddingNeeded_lt (s : Segment) (offset : Nat) : paddingNeeded s offset < 2 * pageSize := by
  have hspec := gapBefore_spec s offset
  have hcases := paddingNeeded_cases s offset
  simp only [pageSize, segmentHeadSize] at hspec hcases ⊢
  omega

/-- What a run adds to the pieces in the file is what its first state comes to. -/
theorem Reaches.lays {l last : Layout} (h : Reaches l last) (hnil : last.mapped = []) :
    ∃ pieces, Lays l.offset l.mapped l.loose pieces ∧
      last.placed.reverse ++ last.loose = l.placed.reverse ++ pieces := by
  -- on the run: each step puts one piece in front of what the state behind it comes to
  induction h with
  | refl l => exact ⟨l.loose, hnil ▸ .rest l.offset l.loose, rfl⟩
  | step hne hstep _ ih =>
    obtain ⟨pieces, hlays, hplaced⟩ := ih hnil
    obtain ⟨hmoves, -⟩ := moves_of_step hne hstep
    rw [hplaced]
    cases hmoves with
    | place s rest loose offset placed _ hright => exact ⟨s :: pieces, .place hright hlays, by simp⟩
    | zeros s rest loose offset placed => exact ⟨_ :: pieces, .zeros (paddingNeeded_lt s offset) hlays, by simp⟩
    | whole s first => exact ⟨first :: pieces, .whole hlays, by simp⟩
    | start s first rest loose offset placed _ hlong => exact ⟨_ :: pieces, .start hlong hlays, by simp⟩

theorem lays_of_padSegments {segments laid : List Segment} {offset : Nat}
    (h : padSegments segments offset = .ok laid) :
    Lays offset (ofSegments segments offset).mapped (ofSegments segments offset).loose laid := by
  obtain ⟨last, hreach, hnil, rfl⟩ := run_eq_ok_iff.1 h
  obtain ⟨pieces, hlays, hplaced⟩ := hreach.lays hnil
  rw [hplaced]
  exact hlays

end Layout

/-! ## Places in a file -/

/-- Segments that stand one behind the other from an offset on, each with the offset of its data. -/
def placesFrom (offset : Nat) : List Segment → List (Nat × Segment)
  | [] => []
  | s :: rest =>
    (offset + segmentHeadSize, s) :: placesFrom (offset + segmentHeadSize + s.data.length) rest

/-- What a head leads to. -/
structure Found where
  offset : Nat
  address : UInt32
  data : Bytes
deriving DecidableEq, Repr

/-- Goes from head to head, `n` times from an offset on: what the heads lead to, and the offset behind it. None where
this leads out of the bytes. -/
def walk (b : Bytes) : Nat → Nat → Option (List Found × Nat)
  | 0, offset => some ([], offset)
  | n + 1, offset =>
    let size := (b.word32At (offset + 4)).toNat
    let start := offset + segmentHeadSize
    if b.length < start + size then none
    else
      (walk b n (start + size)).map fun (found, stop) =>
        (⟨start, b.word32At offset, (b.drop start).take size⟩ :: found, stop)

/-- A segment at its place, as a head leads to it. -/
def foundAt (place : Nat × Segment) : Found := ⟨place.1, place.2.address, place.2.data⟩

theorem length_encode (s : Segment) : s.encode.length = segmentHeadSize + s.data.length := by
  simp only [Segment.encode, length_append, Bytes.ofWord32, length_cons, length_nil, segmentHeadSize]

/-- The heads of segments that were written lead to the segments, where each length fits in a word. -/
theorem walk_flatMap_encode (hlaid : ∀ s ∈ laid, s.data.length < 2 ^ 32) {front : Bytes}
    (hfront : front.length = offset) (rest : Bytes) :
    walk (front ++ (laid.flatMap Segment.encode ++ rest)) laid.length offset =
      some ((placesFrom offset laid).map foundAt, offset + (laid.flatMap Segment.encode).length) := by
  induction laid generalizing front offset with
  | nil => rfl
  | cons s laid ih =>
    have hsize : s.data.length.toUInt32.toNat = s.data.length := UInt32.toNat_ofNat_of_lt' (hlaid s (mem_cons_self ..))
    have hbehind : (front ++ s.encode).length = offset + segmentHeadSize + s.data.length := by
      rw [length_append, length_encode, hfront, Nat.add_assoc]
    have hnext := ih (fun t ht => hlaid t (mem_cons_of_mem s ht)) hbehind
    rw [append_assoc] at hnext
    rw [flatMap_cons, append_assoc]
    generalize hb : front ++ (s.encode ++ (laid.flatMap Segment.encode ++ rest)) = b at hnext ⊢
    -- the head is two words, and the data follows it
    have haddress : Bytes.word32At b offset = s.address := by
      rw [← hb, Segment.encode, append_assoc, append_assoc]
      exact Bytes.word32At_append hfront ..
    have hword : Bytes.word32At b (offset + 4) = s.data.length.toUInt32 := by
      rw [← hb, Segment.encode, append_assoc, append_assoc, ← append_assoc front]
      exact Bytes.word32At_append (by rw [length_append, hfront]; rfl) ..
    have hdata : (b.drop (offset + segmentHeadSize)).take s.data.length = s.data := by
      rw [← hb, Segment.encode, append_assoc, append_assoc, ← append_assoc front,
        ← append_assoc (front ++ _), drop_left' (by simp [hfront, Bytes.ofWord32, segmentHeadSize]),
        take_left]
    have hinside : ¬ b.length < offset + segmentHeadSize + s.data.length := by
      rw [← hb, length_append, length_append, length_encode]
      omega
    rw [length_cons, walk, hword, hsize]
    dsimp only
    rw [if_neg hinside, hnext, haddress, hdata, length_append, length_encode]
    simp only [Option.map_some, placesFrom, map_cons, foundAt, Option.some.injEq, Prod.mk.injEq, true_and]
    omega

/-- The heads and the data of segments that were written stand at their places. -/
theorem encode_prefix_of_mem_placesFrom {front : Bytes} (hfront : front.length = offset) (rest : Bytes)
    {place : Nat × Segment} (h : place ∈ placesFrom offset laid) :
    place.2.encode <+: (front ++ (laid.flatMap Segment.encode ++ rest)).drop (place.1 - segmentHeadSize) := by
  induction laid generalizing front offset with
  | nil => exact absurd h not_mem_nil
  | cons s laid ih =>
    rw [flatMap_cons, append_assoc]
    obtain rfl | h := mem_cons.1 h
    · dsimp only
      rw [Nat.add_sub_cancel, drop_left' hfront]
      exact List.prefix_append ..
    · have hnext : (front ++ s.encode).length = offset + segmentHeadSize + s.data.length := by
        rw [length_append, length_encode, hfront, Nat.add_assoc]
      rw [← append_assoc front]
      exact ih hnext h

/-! ## Mapped segments -/

/-- A place where a mapped segment stands right and in one piece, with no more zeros behind it than the last page
needs. -/
structure Shows (s : Segment) (place : Nat × Segment) : Prop where
  address : place.2.address = s.address
  data : ∃ n, place.2.data = s.data ++ List.replicate n 0 ∧
    shortestTail ≤ (s.address.toNat + s.data.length + n) % pageSize ∧
    ∀ k < n, (s.address.toNat + s.data.length + k) % pageSize < shortestTail
  right : place.1 % pageSize = s.address.toNat % pageSize

theorem Shows.extendTail (s : Segment) (h : offset % pageSize = s.address.toNat % pageSize) :
    Shows s (offset, s.extendTail) := by
  have hstop : s.stop.toNat = (s.address.toNat + s.data.length % 2 ^ 32) % 2 ^ 32 := UInt32.toNat_add ..
  -- the address space is made of whole pages, so the sum may wrap
  have hleft : s.stop.toNat % pageSize = (s.address.toNat + s.data.length) % pageSize := by
    rw [hstop, pageSize]
    omega
  have hpage : (s.address.toNat + s.data.length) % pageSize < pageSize := Nat.mod_lt _ (by decide)
  rw [Segment.extendTail_eq]
  refine ⟨rfl, ⟨shortestTail - s.stop.toNat % pageSize, rfl, ?_, ?_⟩, h⟩
  · rw [hleft, Nat.add_mod]
    generalize (s.address.toNat + s.data.length) % pageSize = left at hpage ⊢
    simp only [shortestTail, pageSize] at hpage ⊢
    omega
  · intro k hk
    rw [hleft] at hk
    rw [Nat.add_mod]
    generalize (s.address.toNat + s.data.length) % pageSize = left at hpage hk ⊢
    simp only [shortestTail, pageSize] at hpage hk ⊢
    omega

/-- The places of mapped segments. -/
def mappedPlaces (offset : Nat) (laid : List Segment) : List (Nat × Segment) :=
  (placesFrom offset laid).filter (·.2.isMapped)

theorem mappedPlaces_cons (h : s.isMapped = true) (laid : List Segment) : mappedPlaces offset (s :: laid) =
      (offset + segmentHeadSize, s) :: mappedPlaces (offset + segmentHeadSize + s.data.length) laid :=
  filter_cons_of_pos h

theorem mappedPlaces_cons_loose (h : s.isMapped = false) (laid : List Segment) :
    mappedPlaces offset (s :: laid) = mappedPlaces (offset + segmentHeadSize + s.data.length) laid :=
  filter_cons_of_neg (Bool.eq_false_iff.1 h)

theorem mappedPlaces_loose (h : ∀ s ∈ laid, s.isMapped = false) (offset : Nat) : mappedPlaces offset laid = [] := by
  induction laid generalizing offset with
  | nil => rfl
  | cons s laid ih =>
    rw [mappedPlaces_cons_loose (h s (mem_cons_self ..))]
    exact ih (fun t ht => h t (mem_cons_of_mem s ht)) _

theorem Segment.length_front {n : Nat} (h : n ≤ s.data.length) : (s.front n).data.length = n := length_take_of_le h

/-- A part of a segment, with the address that it has there. -/
def Segment.IsPartOf (part s : Segment) : Prop :=
  ∃ k n : Nat, part.address = s.address + k.toUInt32 ∧ part.data = (s.data.drop k).take n

theorem Segment.IsPartOf.refl (s : Segment) : s.IsPartOf s := by
  refine ⟨0, s.data.length, (UInt32.add_zero _).symm, ?_⟩
  rw [drop_zero, take_length]

theorem Segment.IsPartOf.front {part : Segment} (h : part.IsPartOf s) (n : Nat) : (part.front n).IsPartOf s := by
  obtain ⟨k, m, haddress, hdata⟩ := h
  refine ⟨k, min n m, haddress, ?_⟩
  rw [← take_take, ← hdata]
  rfl

theorem Segment.IsPartOf.back {part : Segment} (h : part.IsPartOf s) (n : Nat) : (part.back n).IsPartOf s := by
  obtain ⟨k, m, haddress, hdata⟩ := h
  have hsum : (k + n).toUInt32 = k.toUInt32 + n.toUInt32 := UInt32.ofNat_add ..
  refine ⟨k + n, m - n, ?_, ?_⟩
  · rw [hsum, ← UInt32.add_assoc, ← haddress]
    rfl
  · rw [← drop_drop, ← drop_take, ← hdata]
    rfl

namespace Layout

variable {offset : Nat} {mapped loose laid : List Segment}

/-- The mapped segments come to one piece each, in their order and where they stand right. -/
theorem Lays.mappedPlaces (h : Lays offset mapped loose laid) (hmapped : ∀ s ∈ mapped, s.isMapped = true)
    (hloose : ∀ s ∈ loose, s.isMapped = false) :
    List.Forall₂ (fun s place => place.2 = s ∧ place.1 % pageSize = s.address.toNat % pageSize) mapped
      (mappedPlaces offset laid) := by
  -- on the layout: a mapped piece comes with `place` only, all other pieces are loose
  induction h with
  | rest offset loose =>
    rw [mappedPlaces_loose hloose]
    exact .nil
  | @place _ s _ _ _ hright _ ih =>
    rw [mappedPlaces_cons (hmapped s (mem_cons_self ..))]
    exact .cons ⟨rfl, hright⟩ (ih (fun t ht => hmapped t (mem_cons_of_mem s ht)) hloose)
  | @zeros _ n _ _ _ _ _ ih =>
    have hlength : (Segment.zeros n).data.length = n := length_replicate
    rw [mappedPlaces_cons_loose rfl, hlength]
    exact ih hmapped hloose
  | @whole _ first _ _ _ _ ih =>
    rw [mappedPlaces_cons_loose (hloose first (mem_cons_self ..))]
    exact ih hmapped fun t ht => hloose t (mem_cons_of_mem first ht)
  | @start _ n first _ _ _ hn _ ih =>
    have hfirst : first.isMapped = false := hloose first (mem_cons_self ..)
    rw [mappedPlaces_cons_loose (s := first.front n) hfirst, Segment.length_front (Nat.le_of_lt hn)]
    exact ih hmapped (forall_mem_cons.2 ⟨hfirst, fun t ht => hloose t (mem_cons_of_mem first ht)⟩)

/-- What holds of mapped segments, of zeros and, through all cuts, of loose segments holds of all pieces. -/
theorem Lays.forall_mem {P Q : Segment → Prop} (h : Lays offset mapped loose laid) (hmapped : ∀ s ∈ mapped, P s)
    (hloose : ∀ s ∈ loose, Q s) (hzeros : ∀ n < 2 * pageSize, P (.zeros n)) (hwhole : ∀ s, Q s → P s)
    (hcut : ∀ s n, n < s.data.length → Q s → Q (s.front n) ∧ Q (s.back n)) : ∀ p ∈ laid, P p := by
  induction h with
  | rest => exact fun p hp => hwhole p (hloose p hp)
  | place _ _ ih =>
    obtain ⟨hs, hmapped⟩ := forall_mem_cons.1 hmapped
    exact forall_mem_cons.2 ⟨hs, ih hmapped hloose⟩
  | @zeros _ n _ _ _ hn _ ih => exact forall_mem_cons.2 ⟨hzeros n hn, ih hmapped hloose⟩
  | @whole _ first _ _ _ _ ih =>
    obtain ⟨hfirst, hloose⟩ := forall_mem_cons.1 hloose
    exact forall_mem_cons.2 ⟨hwhole first hfirst, ih hmapped hloose⟩
  | @start _ n first _ _ _ hn _ ih =>
    obtain ⟨hfirst, hloose⟩ := forall_mem_cons.1 hloose
    obtain ⟨hfront, hback⟩ := hcut first n hn hfirst
    exact forall_mem_cons.2 ⟨hwhole _ hfront, ih hmapped (forall_mem_cons.2 ⟨hback, hloose⟩)⟩

end Layout

/-! ## Bodies -/

/-- The offset behind segments that stand behind a header. -/
def stopOf (laid : List Segment) : Nat := headerSize + (laid.flatMap Segment.encode).length

/-- What a body holds that segments were laid out in, with the given pieces. -/
structure HasLayout (segments laid : List Segment) (body : Bytes) : Prop where
  /-- Each piece has its head and its data at its place. -/
  stands : ∀ place ∈ placesFrom headerSize laid, place.2.encode <+: body.drop (place.1 - segmentHeadSize)
  /-- The heads lead from piece to piece, as far as a word can hold the lengths. -/
  walk : (∀ p ∈ laid, p.data.length < 2 ^ 32) → BootImage.walk body (body.getD 1 0).toNat headerSize =
    some ((placesFrom headerSize laid).map foundAt, stopOf laid)
  inside : stopOf laid < body.length
  /-- Every mapped segment is one of the pieces, in the order of addresses. -/
  mapped : ∃ sorted : List Segment, sorted.Perm (segments.filter (·.isMapped)) ∧
    sorted.Pairwise (fun a b => a.address ≤ b.address) ∧ List.Forall₂ Shows sorted (mappedPlaces headerSize laid)
  /-- All other pieces are zeros or parts of loose segments. -/
  loose : ∀ p ∈ laid, p.isMapped = false →
    (∃ n, p = .zeros n) ∨ ∃ s ∈ segments, s.isMapped = false ∧ p.IsPartOf s
  rows : body.length % 16 = 0
  zeros : ∀ i, stopOf laid ≤ i → i + 1 < body.length → body[i]? = some 0
  checksum : body.getLast? = some ((laid.flatMap (·.data)).foldl (· ^^^ ·) checksumSeed)

theorem length_digest (message : Bytes) : (Sha256.digest message).length = 32 := rfl

/-- The body of a file, with the digest behind it taken away. -/
def withoutDigest (digest : Bool) (file : Bytes) : Bytes :=
  file.take (file.length - if digest then 32 else 0)

theorem withoutDigest_finish (digest : Bool) (b : Bytes) :
    withoutDigest digest (finish digest b) = b.set digestFlagOffset (if digest then 1 else 0) := by
  unfold withoutDigest finish
  cases digest with
  | false => exact take_length
  | true =>
    simp only [if_true]
    rw [length_append, length_digest, Nat.add_sub_cancel]
    exact take_left

/-- How many zeros stand between the segments and the last byte of a body. -/
def fillSize (header : Bytes) (laid : List Segment) : Nat :=
  15 - (header.length + (laid.flatMap Segment.encode).length) % 16

theorem xorFrom_segments (laid : List Segment) (seed : UInt8) :
    laid.foldl (fun acc s => Bytes.xorFrom acc s.data) seed = (laid.flatMap (·.data)).foldl (· ^^^ ·) seed := by
  rw [foldl_flatMap]
  rfl

/-- The parts of a body. -/
theorem body_eq (header : Bytes) (laid : List Segment) :
    body header laid = header.set 1 laid.length.toUInt8 ++ (laid.flatMap Segment.encode ++
      (List.replicate (fillSize header laid) 0 ++ [(laid.flatMap (·.data)).foldl (· ^^^ ·) checksumSeed])) := by
  have hfill : (header.length + (laid.flatMap Segment.encode).length + 16) / 16 * 16 - 1 -
      (header.length + (laid.flatMap Segment.encode).length) = fillSize header laid := by
    unfold fillSize
    omega
  unfold body Bytes.resize
  dsimp only
  rw [xorFrom_segments, length_append, length_set, hfill, take_of_length_le]
  · simp only [append_assoc]
  · rw [length_append, length_set]
    omega

theorem body_set_flag {header : Bytes} (h : header.length = headerSize) (laid : List Segment) (digest : Bool) :
    (body header laid).set digestFlagOffset (if digest then 1 else 0) =
      fileHeader header laid.length digest ++ (laid.flatMap Segment.encode ++
        (List.replicate (fillSize header laid) 0 ++ [(laid.flatMap (·.data)).foldl (· ^^^ ·) checksumSeed])) := by
  rw [body_eq, set_append_left _ _ (by rw [length_set, h]; decide)]
  rfl

theorem pairwise_byAddress (segments : List Segment) :
    (byAddress segments).Pairwise fun a b => a.address ≤ b.address := by
  have hsorted := @pairwise_mergeSort Segment (fun a b => decide (a.address ≤ b.address))
    (fun a b c hab hbc => decide_eq_true (UInt32.le_trans (of_decide_eq_true hab) (of_decide_eq_true hbc)))
    (fun a b => by simpa using UInt32.le_total a.address b.address) segments
  exact hsorted.imp of_decide_eq_true

theorem of_mem_mapped (h : s ∈ (Layout.ofSegments segments offset).mapped) :
    ∃ t ∈ segments, t.isMapped = true ∧ s = t.extendTail := by
  obtain ⟨t, ht, rfl⟩ := mem_map.1 h
  obtain ⟨ht, hkind⟩ := mem_filter.1 ht
  exact ⟨t, mem_mergeSort.1 ht, hkind, rfl⟩

theorem isMapped_of_mem_mapped (h : s ∈ (Layout.ofSegments segments offset).mapped) : s.isMapped = true := by
  obtain ⟨t, -, hkind, rfl⟩ := of_mem_mapped h
  rw [Segment.extendTail_eq]
  exact hkind

theorem of_mem_loose (h : s ∈ (Layout.ofSegments segments offset).loose) : s ∈ segments ∧ s.isMapped = false := by
  obtain ⟨hs, hloose⟩ := mem_filter.1 h
  exact ⟨mem_mergeSort.1 hs, by simpa using hloose⟩

/-- The mapped segments of an image at their places. -/
theorem mapped_padSegments (h : padSegments segments offset = .ok laid) :
    ∃ sorted : List Segment, sorted.Perm (segments.filter (·.isMapped)) ∧
      sorted.Pairwise (fun a b => a.address ≤ b.address) ∧ List.Forall₂ Shows sorted (mappedPlaces offset laid) := by
  have hplaces := (Layout.lays_of_padSegments h).mappedPlaces (fun _ => isMapped_of_mem_mapped)
    fun _ hs => (of_mem_loose hs).2
  refine ⟨(byAddress segments).filter (·.isMapped), (mergeSort_perm ..).filter _,
    (pairwise_byAddress segments).sublist filter_sublist, ?_⟩
  refine (List.forall₂_map_left_iff.1 hplaces).imp ?_
  rintro s ⟨start, p⟩ ⟨rfl, hright⟩
  rw [Segment.extendTail_eq] at hright
  exact .extendTail s hright

/-- The pieces of an image that are not mapped. -/
theorem loose_padSegments (h : padSegments segments offset = .ok laid) : ∀ p ∈ laid, p.isMapped = false →
      (∃ n, p = .zeros n) ∨ ∃ s ∈ segments, s.isMapped = false ∧ p.IsPartOf s := by
  refine (Layout.lays_of_padSegments h).forall_mem
    (Q := fun p => ∃ s ∈ segments, s.isMapped = false ∧ p.IsPartOf s) ?_ ?_ ?_ ?_ ?_
  · intro s hs hpiece
    rw [isMapped_of_mem_mapped hs] at hpiece
    exact nomatch hpiece
  · intro s hs
    exact ⟨s, (of_mem_loose hs).1, (of_mem_loose hs).2, .refl s⟩
  · exact fun n _ _ => .inl ⟨n, rfl⟩
  · exact fun p hp _ => .inr hp
  · rintro p n - ⟨s, hs, hloose, hpart⟩
    exact ⟨⟨s, hs, hloose, hpart.front n⟩, ⟨s, hs, hloose, hpart.back n⟩⟩

/-- The body of the file of an image. -/
theorem serialize_layout {img : BootImage} {digest : Bool} {file : Bytes} {laid : List Segment}
    (hheader : img.header.length = headerSize) (hfile : img.serialize digest = .ok file)
    (hlaid : padSegments img.segments headerSize = .ok laid) (hfew : laid.length ≤ 255) :
    HasLayout img.segments laid (withoutDigest digest file) := by
  have hsize : headerSize = 24 := rfl
  rw [serialize_eq hheader, hlaid] at hfile
  obtain rfl : finish digest (body img.header laid) = file := Except.ok.inj hfile
  rw [withoutDigest_finish, body_set_flag hheader]
  have hlength : (fileHeader img.header laid.length digest).length = headerSize :=
    (length_fileHeader ..).trans hheader
  have hcount := getElem?_fileHeader_count hheader laid.length digest
  have hfill : fillSize img.header laid = 15 - stopOf laid % 16 := by rw [fillSize, hheader, stopOf]
  -- from here on the body is a header, the pieces, zeros and the checksum, each known by its length
  generalize hchecksum : (laid.flatMap (·.data)).foldl (· ^^^ ·) checksumSeed = checksum
  generalize hzeros : List.replicate (fillSize img.header laid) (0 : UInt8) = zeros
  have hfilled : zeros.length = 15 - stopOf laid % 16 := by rw [← hzeros, List.length_replicate, hfill]
  generalize hfront : fileHeader img.header laid.length digest = front at hlength hcount
  have hbody : (front ++ (laid.flatMap Segment.encode ++ (zeros ++ [checksum]))).length =
      stopOf laid + (15 - stopOf laid % 16) + 1 := by
    simp only [List.length_append, List.length_singleton, hlength, hfilled, stopOf]
    omega
  refine ⟨?_, ?_, ?_, mapped_padSegments hlaid, loose_padSegments hlaid, ?_, ?_, ?_⟩
  · intro place hplace
    exact encode_prefix_of_mem_placesFrom hlength _ hplace
  · intro hwords
    have hnumber : (laid.length.toUInt8).toNat = laid.length := UInt8.toNat_ofNat_of_lt' (by show _ < 256; omega)
    rw [List.getD_eq_getElem?_getD, List.getElem?_append_left (by omega), hcount, Option.getD_some, hnumber]
    exact walk_flatMap_encode hwords hlength _
  · omega
  · omega
  · intro i hstop hi
    rw [hbody] at hi
    rw [← List.append_assoc, List.getElem?_append_right (by rw [List.length_append, hlength]; exact hstop),
      List.length_append, hlength, List.getElem?_append_left (by rw [hfilled]; unfold stopOf at *; omega), ← hzeros,
      List.getElem?_replicate, if_pos]
    rw [hfill]
    unfold stopOf at *
    omega
  · rw [← List.append_assoc, ← List.append_assoc, List.getLast?_concat, hchecksum]

theorem serialize_layout_spread :
    ∃ laid file, padSegments spreadImage.segments headerSize = .ok laid ∧
      spreadImage.serialize true = .ok file ∧ laid.length ≤ 255 ∧ (∀ p ∈ laid, p.data.length < 2 ^ 32) ∧
      HasLayout spreadImage.segments laid (withoutDigest true file) := by
  have hfile := serialize_eq (rfl : spreadImage.header.length = headerSize) true
  rw [padSegments_spreadImage] at hfile
  exact ⟨_, _, padSegments_spreadImage, hfile, by decide, by decide,
    serialize_layout rfl hfile padSegments_spreadImage (by decide)⟩

end BootImage
end Firmware
