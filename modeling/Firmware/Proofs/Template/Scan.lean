import Firmware.Proofs.IntelHex.Contents
import Firmware.Template.Parse

/-!
# Where a template ends

A scan looks at every line once and keeps the base of addresses, the last data record, and the places of the
template's end and of its marker. This module says what it has found at the end of a run: the marker is a data
record of the file (`run_marker`), and the template ends at the first data record that is followed by the end of
the file, by a gap, or by a record beyond the flash that programs may use (`run_stop`).

The scan is on lines in which segment records have been replaced. They are the lines of `Entry.linear`, so the
statements are about the entries as they were.
-/

namespace Firmware

open List

variable {α β : Type}

/-! ## Steps that may fail -/

/-- A sequence of two steps succeeds only if both do. -/
theorem exists_of_bind_eq_ok {x : Except Failure α} {f : α → Except Failure β} {b : β} (h : x >>= f = .ok b) :
    ∃ a, x = .ok a ∧ f a = .ok b := by
  cases x with
  | error e => exact nomatch h
  | ok a => exact ⟨a, rfl, h⟩

theorem exists_of_map_eq_ok {x : Except Failure α} {f : α → β} {b : β} (h : x.map f = .ok b) :
    ∃ a, x = .ok a ∧ f a = b := by
  cases x with
  | error e => exact nomatch h
  | ok a => exact ⟨a, rfl, Except.ok.inj h⟩

theorem exists_of_isOk {r : Except Failure α} (h : r.isOk = true) : ∃ a, r = .ok a := by
  cases r with
  | error f => exact nomatch h
  | ok a => exact ⟨a, rfl⟩

theorem exists_of_map_toOption {r : Except Failure α} {f : α → β} {b : β} (h : r.toOption.map f = some b) :
    ∃ a, r = .ok a ∧ f a = b := by
  cases r with
  | error e => exact nomatch h
  | ok a => exact ⟨a, rfl, Option.some.inj h⟩

/-- A step for every element of a list gives as many results. -/
theorem length_of_mapM {f : α → Except Failure β} {l : List α} {r : List β} (h : l.mapM f = .ok r) :
    r.length = l.length := by
  induction l generalizing r with
  | nil =>
    obtain rfl := Except.ok.inj h
    rfl
  | cons a rest ih =>
    rw [mapM_cons] at h
    obtain ⟨b, -, h⟩ := exists_of_bind_eq_ok h
    obtain ⟨bs, hbs, h⟩ := exists_of_bind_eq_ok h
    obtain rfl := Except.ok.inj h
    rw [length_cons, length_cons, ih hbs]

namespace Template

open IntelHex IntelHex.Entry

/-! ## The rule -/

/-- Whether the data record at `next` lies outside of a template whose last record so far is at `last`: behind
a gap, or in flash that programs may not use. -/
def Leaves (t : Target) (last next : UInt32) : Prop :=
  last + 0x10000 < next ∨ (t.flashUsableEnd ≠ 0 ∧ t.flashUsableEnd ≤ next)

instance (t : Target) (last next : UInt32) : Decidable (Leaves t last next) :=
  inferInstanceAs (Decidable (_ ∨ _))

theorem leaves_iff {t : Target} {last next : UInt32} :
    (last + 0x10000 < next || (t.flashUsableEnd != 0 && t.flashUsableEnd ≤ next)) = true ↔ Leaves t last next := by
  simp [Leaves]

/-- Whether a template ends at its data record at `last`, judged by what follows: the next data record lies
outside, or the file ends before it. -/
def EndsBefore (t : Target) (last base : UInt32) : List Entry → Prop
  | [] => False
  | e :: rest =>
    if e.type = dataType then Leaves t last (base + e.address.toUInt32)
    else e.EndsFile ∨ EndsBefore t last (e.record.base?.getD base) rest

/-- A template that consists of `pre`, a last data record `d` and the rest `post` of the file, where `d` is
the first data record at which it may end. -/
structure Ends (t : Target) (base : UInt32) (pre : List Entry) (d : Entry) (post : List Entry) : Prop where
  data : d.type = dataType
  stops : EndsBefore t (baseAfter base pre + d.address.toUInt32) (baseAfter base pre) post
  first : ∀ (before : List Entry) (e : Entry) (between : List Entry), pre = before ++ e :: between → e.type = dataType →
    ¬ EndsBefore t (baseAfter base before + e.address.toUInt32) (baseAfter base before)
      (between ++ d :: post)

/-! ## Lines of entries -/

/-- A linear record takes the place of a segment record, which has to be aligned. -/
theorem of_withUpperAddress {e : Entry} {line : String} (h : withUpperAddress e.line = .ok line) :
    e.Aligned ∧ line = e.linear.line := by
  have hencode : (Utf8.encode e.line)[8]? = some (Hexadecimal.upperDigit (e.type &&& 0xF)).toNat.toUInt8 := by
    rw [encode_line]
    rfl
  unfold withUpperAddress at h
  rw [hencode] at h
  by_cases hseg : e.type = segmentType
  · -- the ninth byte of a segment record is the digit two
    rw [hseg, if_neg (by decide), segmentDigits?_line] at h
    by_cases hlen : e.data.length = 2
    · rw [if_pos ⟨hseg, hlen⟩] at h
      have hne : e.data ≠ [] := by
        intro hnil
        rw [hnil] at hlen
        exact absurd hlen (by decide)
      dsimp only at h
      rw [valueOf_chars hne (by omega)] at h
      by_cases hmod : Numeral.bigEndian 0 e.data * 16 % 65536 = 0
      · rw [if_neg (by simp [hmod])] at h
        refine ⟨fun _ => ⟨hlen, hmod⟩, ?_⟩
        rw [line_linear_of_segment hseg]
        exact (Except.ok.inj h).symm
      · rw [if_pos (by simpa using hmod)] at h
        exact nomatch h
    · rw [if_neg (fun hand : _ ∧ _ => hlen hand.2)] at h
      exact nomatch h
  · refine ⟨fun hs => absurd hs hseg, ?_⟩
    rw [linear_of_ne hseg]
    by_cases hdigit : (some (Hexadecimal.upperDigit (e.type &&& 0xF)).toNat.toUInt8 != some 0x32) = true
    · rw [if_pos hdigit] at h
      exact (Except.ok.inj h).symm
    · rw [if_neg hdigit, segmentDigits?_line, if_neg (fun hand : _ ∧ _ => hseg hand.1)] at h
      exact nomatch h

theorem of_mapM_withUpperAddress {es : List Entry} {lines : List String}
    (h : (es.map line).mapM withUpperAddress = .ok lines) :
    (∀ e ∈ es, e.Aligned) ∧ lines = (es.map linear).map line := by
  induction es generalizing lines with
  | nil =>
    obtain rfl := Except.ok.inj h
    exact ⟨fun e he => absurd he not_mem_nil, rfl⟩
  | cons e rest ih =>
    rw [map_cons, mapM_cons] at h
    obtain ⟨l, hline, h⟩ := exists_of_bind_eq_ok h
    obtain ⟨ls, hrest, h⟩ := exists_of_bind_eq_ok h
    obtain rfl := Except.ok.inj h
    obtain ⟨he, rfl⟩ := of_withUpperAddress hline
    obtain ⟨hall, rfl⟩ := ih hrest
    exact ⟨forall_mem_cons.2 ⟨he, hall⟩, rfl⟩

/-- The marker's line is the data record with the marker's bytes. -/
theorem isMarkerLine_line (e : Entry) : isMarkerLine e.line = decide (e.type = dataType ∧ e.data = blobMarker) := by
  have hlead : after? [':', '1', '0'] e.line.toList =
      if List.isPrefixOf [0x10] e.bytes then some (Hexadecimal.chars (e.bytes.drop 1)) else none :=
    after?_line [0x10] e
  have haddress : takeAny 4 (Hexadecimal.chars (e.bytes.drop 1)) = some (Hexadecimal.chars e.addressBytes,
      Hexadecimal.chars (e.type :: (e.data ++ [e.checksum]))) :=
    takeAny_chars (n := 2) (b := e.addressBytes ++ e.type :: (e.data ++ [e.checksum]))
      (by simp [addressBytes])
  have hmarker : ['0', '0'] ++ markerDigits = Hexadecimal.chars (dataType :: blobMarker) := by decide +kernel
  have hfirst : List.isPrefixOf [0x10] e.bytes = true ↔ e.data.length = 16 := by
    simp only [Entry.bytes, List.isPrefixOf, Bool.and_true, beq_iff_eq]
    constructor
    · intro h
      rw [← e.toNat_length, ← h]
      rfl
    · intro h
      rw [h]
      rfl
  unfold isMarkerLine
  rw [hlead]
  by_cases hlen : e.data.length = 16
  · rw [if_pos (hfirst.2 hlen)]
    dsimp only
    rw [haddress]
    dsimp only
    rw [hmarker, Hexadecimal.isPrefixOf_chars, Bool.eq_iff_iff, decide_eq_true_iff,
      List.isPrefixOf_iff_prefix, List.cons_prefix_cons]
    constructor
    · rintro ⟨htype, hpre⟩
      refine ⟨htype.symm, ?_⟩
      -- data and marker have the same length, so the checksum is not part of the match
      have htake := List.prefix_iff_eq_take.1 hpre
      rw [take_left' (hlen.trans (by decide))] at htake
      exact htake.symm
    · rintro ⟨htype, hdata⟩
      exact ⟨htype.symm, hdata ▸ List.prefix_append ..⟩
  · rw [if_neg (fun h => hlen (hfirst.1 h))]
    symm
    rw [decide_eq_false_iff_not]
    rintro ⟨-, hdata⟩
    exact hlen (by rw [hdata]; decide)

/-! ## One line -/

/-- The address of a data record, put together from its halves. -/
theorem shiftLeft_or_address (upper : UInt32) (a : UInt16) :
    (upper <<< 16) ||| a.toUInt32 = upper * 65536 + a.toUInt32 := by
  have ha := a.toNat_lt
  have hup := upper.toNat_lt
  have hshift : (upper <<< 16).toNat = (upper.toNat % 65536) <<< 16 := by
    rw [UInt32.toNat_shiftLeft]
    show upper.toNat <<< 16 % 4294967296 = _
    rw [Nat.shiftLeft_eq, Nat.shiftLeft_eq]
    omega
  apply UInt32.toNat_inj.1
  rw [UInt32.toNat_or, hshift, UInt16.toNat_toUInt32,
    ← Nat.shiftLeft_add_eq_or_of_lt (by omega : a.toNat < 2 ^ 16), UInt32.toNat_add, UInt32.toNat_mul,
    UInt16.toNat_toUInt32, Nat.shiftLeft_eq]
  show _ = (upper.toNat * 65536 % 4294967296 + a.toNat) % 4294967296
  omega

namespace Scan

variable {t : Target} {s : Scan} {i : Nat} {e : Entry}
variable {m : Mark} {es : List Entry}

theorem addLine_data (hdata : e.type = dataType) (s : Scan) (i : Nat) : s.addLine t i e.line =
      let m : Mark := ⟨i, s.upper * 65536 + e.address.toUInt32⟩
      { s.addData t m with marker := if e.data = blobMarker then some m else s.marker } := by
  have hlinear : ¬ (e.type = linearType ∧ e.data.length = 2) := by
    rw [hdata]
    exact fun h => absurd h.1 (by decide)
  have hend : ¬ e.EndsFile := fun h => h.ne_dataType hdata
  unfold addLine
  rw [linearDigits?_line, if_neg hlinear, dataAddress?_line, if_pos hdata, isEnd_line, isMarkerLine_line,
    decide_eq_false hend]
  dsimp only
  rw [valueOf_addressBytes, shiftLeft_or_address]
  by_cases hmarker : e.data = blobMarker
  · rw [if_neg Bool.false_ne_true, if_pos (decide_eq_true ⟨hdata, hmarker⟩), if_pos hmarker]
    rfl
  · rw [if_neg Bool.false_ne_true, if_neg (by simp [hmarker]), if_neg hmarker]
    unfold addData
    dsimp only
    congr 1
    split
    · rfl
    · split <;> rfl

theorem addLine_end (hend : e.EndsFile) (s : Scan) (i : Nat) : s.addLine t i e.line = s.close := by
  have hlinear : ¬ (e.type = linearType ∧ e.data.length = 2) := by
    rw [hend.1]
    exact fun h => absurd h.1 (by decide)
  unfold addLine
  rw [linearDigits?_line, if_neg hlinear, dataAddress?_line, if_neg hend.ne_dataType, isEnd_line,
    isMarkerLine_line, decide_eq_true hend, decide_eq_false (fun h => hend.ne_dataType h.1)]
  rfl

/-- Any other line may set the base and does nothing else. -/
theorem addLine_other (hdata : e.type ≠ dataType) (hend : ¬ e.EndsFile) (ha : e.Aligned) (s : Scan) (i : Nat) :
    ∃ upper : UInt32, s.addLine t i e.linear.line = { s with upper } ∧
      upper * 65536 = e.record.base?.getD (s.upper * 65536) := by
  have hdata' := type_linear_ne_data hdata
  have hseg' := type_linear_ne_segment e
  have hend' : ¬ e.linear.EndsFile := by
    by_cases hseg : e.type = segmentType
    · rw [linear, if_pos hseg]
      exact fun h => absurd h.1 (by decide : linearType ≠ endType)
    · rwa [linear_of_ne hseg]
  -- from here on only the linear record counts
  rw [← base?_linear ha]
  generalize e.linear = f at hdata' hend' hseg' ⊢
  unfold addLine
  rw [linearDigits?_line, dataAddress?_line, if_neg hdata', isEnd_line, isMarkerLine_line,
    decide_eq_false hend', decide_eq_false (fun h => hdata' h.1)]
  unfold Record.base?
  by_cases hlinear : f.type = linearType ∧ f.data.length = 2
  · have hne : f.data ≠ [] := by
      intro hnil
      rw [hnil] at hlinear
      exact absurd hlinear.2 (by decide)
    rw [if_pos hlinear, if_pos (show f.record.data.length = 2 from hlinear.2),
      if_neg (show ¬ f.record.type = segmentType from hseg'),
      if_pos (show f.record.type = linearType from hlinear.1)]
    refine ⟨(Numeral.bigEndian 0 f.data).toUInt32, ?_, rfl⟩
    dsimp only
    rw [valueOf_chars hne (by omega)]
    rfl
  · rw [if_neg hlinear]
    refine ⟨s.upper, rfl, ?_⟩
    by_cases hlen : f.data.length = 2
    · rw [if_pos (show f.record.data.length = 2 from hlen), if_neg (show ¬ f.record.type = segmentType from hseg'),
        if_neg (show ¬ f.record.type = linearType from fun h => hlinear ⟨h, hlen⟩)]
      rfl
    · rw [if_neg (show ¬ f.record.data.length = 2 from hlen)]
      rfl

theorem upper_addData (s : Scan) (m : Mark) : (s.addData t m).upper = s.upper := by
  unfold addData
  dsimp only
  split
  · rfl
  · split <;> rfl

theorem stop_addData_of_last {l : Mark} (hlast : s.last = some l) {leaves : Bool}
    (h : (l.address + 0x10000 < m.address ||
      (t.flashUsableEnd != 0 && t.flashUsableEnd ≤ m.address)) = leaves) :
    (s.addData t m).stop = if leaves then s.close.stop else s.stop := by
  unfold addData
  simp only [hlast, h]
  cases leaves with
  | true => rw [if_pos rfl, if_pos rfl]
  | false => rw [if_neg Bool.false_ne_true, if_neg Bool.false_ne_true]

/-- A data record outside of the template fixes its end. -/
theorem stop_addData (s : Scan) (m : Mark) : (s.addData t m).stop =
      if ∃ l, s.last = some l ∧ Leaves t l.address m.address then s.stop <|> s.last else s.stop := by
  by_cases hleaves : ∃ l, s.last = some l ∧ Leaves t l.address m.address
  · rw [if_pos hleaves]
    obtain ⟨l, hlast, hl⟩ := hleaves
    rw [stop_addData_of_last hlast (leaves_iff.2 hl), if_pos rfl]
    rfl
  · rw [if_neg hleaves]
    cases hlast : s.last with
    | none =>
      unfold addData
      simp only [hlast, Bool.false_eq_true, if_false]
    | some l =>
      have hstay : ¬ Leaves t l.address m.address := fun hl => hleaves ⟨l, hlast, hl⟩
      rw [stop_addData_of_last hlast (Bool.eq_false_iff.2 fun hb => hstay (leaves_iff.1 hb)), if_neg Bool.false_ne_true]

/-- What a line does to a scan. -/
structure Step (t : Target) (s : Scan) (i : Nat) (e : Entry) (s' : Scan) : Prop where
  upper : s'.upper * 65536 = e.record.base?.getD (s.upper * 65536)
  last : s'.last =
    if e.type = dataType then some ⟨i, s.upper * 65536 + e.address.toUInt32⟩ else s.last
  stop : s'.stop =
    if e.type = dataType then
      if ∃ l, s.last = some l ∧ Leaves t l.address (s.upper * 65536 + e.address.toUInt32) then
        s.stop <|> s.last
      else s.stop
    else if e.EndsFile then s.stop <|> s.last else s.stop
  marker : s'.marker =
    if e.type = dataType ∧ e.data = blobMarker then
      some ⟨i, s.upper * 65536 + e.address.toUInt32⟩
    else s.marker

theorem step_addLine (ha : e.Aligned) (s : Scan) (i : Nat) : Step t s i e (s.addLine t i e.linear.line) := by
  by_cases hdata : e.type = dataType
  · rw [linear_of_data hdata, addLine_data hdata]
    constructor
    case upper =>
      dsimp only
      rw [upper_addData, base?_of_data hdata]
      rfl
    case last => rw [if_pos hdata]; rfl
    case stop =>
      rw [if_pos hdata]
      exact stop_addData ..
    case marker =>
      dsimp only
      by_cases hmarker : e.data = blobMarker
      · rw [if_pos hmarker, if_pos ⟨hdata, hmarker⟩]
      · rw [if_neg hmarker, if_neg (fun h : _ ∧ _ => hmarker h.2)]
  · have hmark : ¬ (e.type = dataType ∧ e.data = blobMarker) := fun h => hdata h.1
    by_cases hend : e.EndsFile
    · have hseg : e.type ≠ segmentType := by rw [hend.1]; decide
      rw [linear_of_ne hseg, addLine_end hend]
      constructor
      case upper => rw [hend.base?]; rfl
      case last => rw [if_neg hdata]; rfl
      case stop => rw [if_neg hdata, if_pos hend]; rfl
      case marker => rw [if_neg hmark]; rfl
    · obtain ⟨upper, hline, hupper⟩ := addLine_other (t := t) hdata hend ha s i
      rw [hline]
      constructor
      case upper => exact hupper
      case last => rw [if_neg hdata]
      case stop => rw [if_neg hdata, if_neg hend]
      case marker => rw [if_neg hmark]

/-- A line fixes the end at the last data record in front of it, if it fixes it at all. -/
theorem Step.stop_cases {s' : Scan} (h : Step t s i e s') (hstop : s.stop = none) (rest : List Entry) :
    (∃ l, s.last = some l ∧ s'.stop = some l ∧ EndsBefore t l.address (s.upper * 65536) (e :: rest)) ∨
    (s'.stop = none ∧ ∀ l, s.last = some l → (EndsBefore t l.address (s.upper * 65536) (e :: rest) ↔
        e.type ≠ dataType ∧ EndsBefore t l.address (e.record.base?.getD (s.upper * 65536)) rest)) := by
  have hs' := h.stop
  by_cases hdata : e.type = dataType
  · have hends : ∀ l, EndsBefore t l (s.upper * 65536) (e :: rest) ↔
        Leaves t l (s.upper * 65536 + e.address.toUInt32) := by
      intro l
      rw [EndsBefore, if_pos hdata]
    rw [if_pos hdata, hstop] at hs'
    by_cases hleaves : ∃ l, s.last = some l ∧ Leaves t l.address (s.upper * 65536 + e.address.toUInt32)
    · rw [if_pos hleaves] at hs'
      obtain ⟨l, hlast, hl⟩ := hleaves
      exact .inl ⟨l, hlast, hs'.trans hlast, (hends _).2 hl⟩
    · rw [if_neg hleaves] at hs'
      refine .inr ⟨hs', fun l hl => ?_⟩
      rw [hends]
      exact ⟨fun hb => absurd ⟨l, hl, hb⟩ hleaves, fun hand => absurd hdata hand.1⟩
  · have hends : ∀ l, EndsBefore t l (s.upper * 65536) (e :: rest) ↔
        e.EndsFile ∨ EndsBefore t l (e.record.base?.getD (s.upper * 65536)) rest := by
      intro l
      rw [EndsBefore, if_neg hdata]
    rw [if_neg hdata, hstop] at hs'
    by_cases hend : e.EndsFile
    · -- the end of a file without data records fixes nothing
      rw [if_pos hend] at hs'
      cases hlast : s.last with
      | some l => exact .inl ⟨l, rfl, hs'.trans hlast, (hends _).2 (.inl hend)⟩
      | none => exact .inr ⟨hs'.trans hlast, fun l hl => nomatch hl⟩
    · rw [if_neg hend] at hs'
      refine .inr ⟨hs', fun l _ => ?_⟩
      rw [hends]
      exact ⟨fun hb => ⟨hdata, hb.resolve_left hend⟩, fun hand => .inr hand.2⟩

/-! ## A run -/

/-- An end that is fixed stays. -/
theorem stop_run (ha : ∀ e ∈ es, e.Aligned) (h : s.stop = some m) :
    (run t s i ((es.map linear).map line)).stop = some m := by
  induction es generalizing s i with
  | nil => exact h
  | cons e rest ih =>
    have hstep := (step_addLine (t := t) (ha e (mem_cons_self ..)) s i).stop
    rw [map_cons, map_cons, run]
    apply ih fun f hf => ha f (mem_cons_of_mem e hf)
    rw [hstep, h]
    split
    · split <;> rfl
    · split <;> rfl

/-- **The end of a template.** A run that starts with no end fixed either fixes it at the last data record in
front of the lines, or at the first data record of the lines at which the template may end. -/
theorem run_stop (ha : ∀ e ∈ es, e.Aligned) (hstop : s.stop = none)
    (h : (run t s i ((es.map linear).map line)).stop = some m) :
    (s.last = some m ∧ EndsBefore t m.address (s.upper * 65536) es) ∨
    ∃ (pre : List Entry) (d : Entry) (post : List Entry), es = pre ++ d :: post ∧ Ends t (s.upper * 65536) pre d post ∧
      m = ⟨i + pre.length, baseAfter (s.upper * 65536) pre + d.address.toUInt32⟩ ∧
      ∀ l, s.last = some l → ¬ EndsBefore t l.address (s.upper * 65536) es := by
  induction es generalizing s i with
  | nil =>
    rw [show (run t s i (([].map linear).map line)).stop = s.stop from rfl, hstop] at h
    exact nomatch h
  | cons e rest ih =>
    have hrest := fun f hf => ha f (mem_cons_of_mem e hf)
    have hstep := step_addLine (t := t) (ha e (mem_cons_self ..)) s i
    rw [map_cons, map_cons, run] at h
    generalize s.addLine t i e.linear.line = s' at h hstep
    obtain ⟨l, hlast, hfixed, hends⟩ | ⟨hopen, hends⟩ := hstep.stop_cases hstop rest
    · -- the line fixes the end
      rw [stop_run hrest hfixed] at h
      obtain rfl := Option.some.inj h
      exact .inl ⟨hlast, hends⟩
    have hlast' := hstep.last
    -- otherwise the rest of the lines does, at this line or further on
    obtain ⟨hm, hb⟩ | ⟨pre, d, post, rfl, hpost, rfl, hkeep⟩ := ih hrest hopen h
    · rw [hstep.upper] at hb
      by_cases hdata : e.type = dataType
      · -- it is a data record, and the template ends at it
        rw [if_pos hdata, hm] at hlast'
        obtain rfl := Option.some.inj hlast'
        rw [base?_of_data hdata, Option.getD_none] at hb
        refine .inr ⟨[], e, rest, rfl, ⟨hdata, ?_, ?_⟩, ?_, ?_⟩
        · rwa [baseAfter_nil]
        · intro before f between hnil
          exact absurd hnil (by simp)
        · rw [baseAfter_nil, length_nil, Nat.add_zero]
        · intro l hl hb'
          exact ((hends l hl).1 hb').1 hdata
      · rw [if_neg hdata, hm] at hlast'
        exact .inl ⟨hlast'.symm, (hends m hlast'.symm).2 ⟨hdata, hb⟩⟩
    · -- the end lies further on
      rw [hstep.upper] at hpost hkeep ⊢
      refine .inr ⟨e :: pre, d, post, rfl, ⟨hpost.data, hpost.stops, ?_⟩, ?_, ?_⟩
      · intro before f between hsplit hf
        cases before with
        | nil =>
          obtain ⟨rfl, rfl⟩ := List.cons.inj hsplit
          rw [if_pos hf] at hlast'
          have hnot := hkeep _ hlast'
          rwa [base?_of_data hf] at hnot
        | cons g before =>
          obtain ⟨rfl, rfl⟩ := List.cons.inj hsplit
          exact hpost.first before f between rfl hf
      · rw [length_cons, Nat.add_right_comm, Nat.add_assoc]
        rfl
      · intro l hl hb
        obtain ⟨hdata, hb⟩ := (hends l hl).1 hb
        rw [if_neg hdata] at hlast'
        exact hkeep l (hlast'.trans hl) hb

/-- **The marker of a template** is a data record with the marker's bytes. -/
theorem run_marker (ha : ∀ e ∈ es, e.Aligned) (h : (run t s i ((es.map linear).map line)).marker = some m) :
    s.marker = some m ∨
    ∃ (pre : List Entry) (d : Entry) (post : List Entry), es = pre ++ d :: post ∧
      d.type = dataType ∧ d.data = blobMarker ∧
      m = ⟨i + pre.length, baseAfter (s.upper * 65536) pre + d.address.toUInt32⟩ := by
  induction es generalizing s i with
  | nil => exact .inl h
  | cons e rest ih =>
    have hstep := step_addLine (t := t) (ha e (mem_cons_self ..)) s i
    rw [map_cons, map_cons, run] at h
    generalize s.addLine t i e.linear.line = s' at h hstep
    obtain hmark | ⟨pre, d, post, rfl, hd, hd', rfl⟩ := ih (fun f hf => ha f (mem_cons_of_mem e hf)) h
    · -- the last marker of the lines counts, so this one if there is none behind it
      rw [hstep.marker] at hmark
      by_cases hmarker : e.type = dataType ∧ e.data = blobMarker
      · rw [if_pos hmarker] at hmark
        exact .inr ⟨[], e, rest, rfl, hmarker.1, hmarker.2, (Option.some.inj hmark).symm⟩
      · rw [if_neg hmarker] at hmark
        exact .inl hmark
    · refine .inr ⟨e :: pre, d, post, rfl, hd, hd', ?_⟩
      rw [hstep.upper, length_cons, Nat.add_right_comm, Nat.add_assoc]
      rfl

end Scan
end Template
end Firmware
