import Firmware.Proofs.BootImage.Alignment
import Firmware.Proofs.Image.BootProgram
import Firmware.Proofs.Image.LostPlaces
import Firmware.Proofs.Image.StateLines

/-!
# Linking within bounds

Reading a template leaves linking with what it needs to stay within bounds in all but three places. The hash that goes
into the header is cut in groups of four digits, and letters may get fewer bytes in upper case (`HashCut`). A line may
lose its place while its placeholders are replaced (`LosesPlaces`). And the marker may stand behind the end of the
template, so that its line is not among those in front of the program. Together with a record that a template cannot be
completed at, these are all the crashes there are (`crashes_iff`).
-/

namespace Firmware

open List

/-! ## Hashes -/

namespace Numeral

/-- Whether a byte is a hexadecimal digit, in either case. -/
def isHexDigit (b : UInt8) : Bool := (digit? b).any (· < 16)

/-- Digits that are few enough are read. -/
theorem accumulate_isOk {text : Bytes} {n : Nat} (h : (n + 1) * 16 ^ text.length ≤ 65536) :
    (∃ m, accumulate 16 65535 false n text = .ok m) ↔ ∀ b ∈ text, isHexDigit b = true := by
  induction text generalizing n with
  | nil => exact ⟨fun _ b hb => absurd hb not_mem_nil, fun _ => ⟨n, rfl⟩⟩
  | cons b rest ih =>
    rw [forall_mem_cons, accumulate, Bool.false_and, if_neg Bool.false_ne_true]
    cases hdigit : digit? b with
    | none =>
      have hnot : isHexDigit b = false := by rw [isHexDigit, hdigit]; rfl
      simp [hnot]
    | some d =>
      have hhex : isHexDigit b = decide (d < 16) := by rw [isHexDigit, hdigit]; rfl
      dsimp only
      by_cases hd : 16 ≤ d
      · rw [if_pos hd, hhex, decide_eq_false (Nat.not_lt.2 hd)]
        simp
      · have hroom : (n * 16 + d + 1) * 16 ^ rest.length ≤ 65536 := by
          refine Nat.le_trans (Nat.mul_le_mul_right _ (by omega : n * 16 + d + 1 ≤ (n + 1) * 16)) ?_
          rw [Nat.mul_assoc, Nat.mul_comm 16, ← Nat.pow_succ]
          exact h
        have hsmall : ¬ 65535 < n * 16 + d := by
          have hpos : 0 < 16 ^ rest.length := Nat.pow_pos (by decide)
          have hle := Nat.le_mul_of_pos_right (n * 16 + d + 1) hpos
          omega
        rw [if_neg hd, if_neg hsmall, ih hroom, hhex, decide_eq_true (Nat.not_le.1 hd)]
        simp

end Numeral

namespace Image

variable {t : Template}

/-- Whether the hash of a template is cut within a group of four digits, behind groups of digits only. -/
def HashCut (t : Template) : Prop :=
  ∃ i < 4, (Utf8.encode t.hashText).length < 4 * (i + 1) ∧
    ∀ b ∈ (Utf8.encode t.hashText).take (4 * i), Numeral.isHexDigit b = true

/-- A word of a template's hash. -/
def hashWord (t : Template) (i : Nat) : Except Failure UInt16 :=
  let digits : Bytes := ((Utf8.encode t.hashText).drop (i * 4)).take 4
  if digits.length < 4 then .error .outOfRange
  else
    let digits := IntelHex.swapPairs digits
    match Numeral.read (.fixed 16) 16 digits with
    | .ok n => .ok n.toUInt16
    | .error f => .error (.badTemplateHash t.hashText digits f)

theorem hashWords_eq_mapM (t : Template) : hashWords t = [0, 1, 2, 3].mapM (hashWord t) := rfl

theorem read_swapPairs {digits : Bytes} (h : digits.length = 4) :
    (∃ n, Numeral.read (.fixed 16) 16 (IntelHex.swapPairs digits) = .ok n) ↔
      ∀ b ∈ digits, Numeral.isHexDigit b = true := by
  match digits, h with
  | [a, b, c, d], _ =>
    have hswap : IntelHex.swapPairs [a, b, c, d] = [c, d, a, b] := by
      unfold IntelHex.swapPairs
      simp [Bytes.rows_of_ne_nil]
    rw [hswap]
    have hread : Numeral.read (.fixed 16) 16 [c, d, a, b] = Numeral.accumulate 16 65535 false 0 [c, d, a, b] := by
      simp [Numeral.read]
    rw [hread, Numeral.accumulate_isOk (by simp)]
    -- the pairs change places, and all digits are still there
    simp only [forall_mem_cons]
    constructor
    · rintro ⟨hc, hd, ha, hb, hnil⟩
      exact ⟨ha, hb, hc, hd, hnil⟩
    · rintro ⟨ha, hb, hc, hd, hnil⟩
      exact ⟨hc, hd, ha, hb, hnil⟩

theorem length_group (text : Bytes) (i : Nat) :
    ((text.drop (i * 4)).take 4).length < 4 ↔ text.length < 4 * (i + 1) := by
  rw [length_take, length_drop]
  omega

theorem crashes_hashWord (i : Nat) : Crashes (hashWord t i) ↔ (Utf8.encode t.hashText).length < 4 * (i + 1) := by
  rw [← length_group]
  unfold hashWord
  dsimp only
  split
  next hcut => exact ⟨fun _ => hcut, fun _ => (crashes_error _).2 rfl⟩
  next hcut =>
    refine ⟨fun h => ?_, fun h => absurd h hcut⟩
    split at h
    next => exact absurd h (not_crashes_ok _)
    next => exact absurd h (not_crashes_error rfl)

theorem hashWord_isOk (i : Nat) : (∃ w, hashWord t i = .ok w) ↔ 4 * (i + 1) ≤ (Utf8.encode t.hashText).length ∧
      ∀ b ∈ ((Utf8.encode t.hashText).drop (4 * i)).take 4, Numeral.isHexDigit b = true := by
  rw [← Nat.not_lt, ← length_group, Nat.mul_comm 4 i]
  unfold hashWord
  dsimp only
  split
  next hcut =>
    refine ⟨?_, fun h => absurd hcut h.1⟩
    rintro ⟨w, hw⟩
    exact nomatch hw
  next hcut =>
    have hfour : (((Utf8.encode t.hashText).drop (i * 4)).take 4).length = 4 := by
      have hle := length_take_le 4 ((Utf8.encode t.hashText).drop (i * 4))
      omega
    rw [← read_swapPairs hfour]
    cases hread : Numeral.read (.fixed 16) 16
        (IntelHex.swapPairs (((Utf8.encode t.hashText).drop (i * 4)).take 4)) with
    | error f => simp
    | ok n => exact ⟨fun _ => ⟨hcut, n, rfl⟩, fun _ => ⟨_, rfl⟩⟩

/-- The first words from one on are read up to the cut. -/
theorem crashes_mapM_hashWord (i n : Nat) : Crashes ((List.range' i n).mapM (hashWord t)) ↔ ∃ j, i ≤ j ∧ j < i + n ∧
      (Utf8.encode t.hashText).length < 4 * (j + 1) ∧
      ∀ b ∈ ((Utf8.encode t.hashText).drop (4 * i)).take (4 * (j - i)), Numeral.isHexDigit b = true := by
  -- on the number of words; the digits in front of a cut are those of the first group and those of the rest
  induction n generalizing i with
  | zero =>
    refine ⟨fun h => absurd h (not_crashes_ok _), ?_⟩
    rintro ⟨j, hij, hji, -⟩
    omega
  | succ n ih =>
    have hsplit : ∀ j, i < j → ((Utf8.encode t.hashText).drop (4 * i)).take (4 * (j - i)) =
        ((Utf8.encode t.hashText).drop (4 * i)).take 4 ++
          ((Utf8.encode t.hashText).drop (4 * (i + 1))).take (4 * (j - (i + 1))) := by
      intro j hij
      rw [show 4 * (j - i) = 4 + 4 * (j - (i + 1)) by omega, take_add, drop_drop]
      rfl
    rw [range'_succ, crashes_mapM_cons, crashes_hashWord, hashWord_isOk, ih]
    constructor
    · rintro (hcut | ⟨⟨-, hgroup⟩, j, hij, hjn, hcut, hdigits⟩)
      · exact ⟨i, Nat.le_refl i, by omega, hcut, by simp⟩
      · refine ⟨j, by omega, by omega, hcut, ?_⟩
        rw [hsplit j hij]
        exact forall_mem_append.2 ⟨hgroup, hdigits⟩
    · rintro ⟨j, hij, hjn, hcut, hdigits⟩
      by_cases hwhole : (Utf8.encode t.hashText).length < 4 * (i + 1)
      · exact .inl hwhole
      · have hlt : i < j := by omega
        rw [hsplit j hlt] at hdigits
        obtain ⟨hgroup, hdigits⟩ := forall_mem_append.1 hdigits
        exact .inr ⟨⟨Nat.not_lt.1 hwhole, hgroup⟩, j, hlt, by omega, hcut, hdigits⟩

theorem crashes_hashWords : Crashes (hashWords t) ↔ HashCut t := by
  rw [hashWords_eq_mapM]
  refine (crashes_mapM_hashWord 0 4).trans ?_
  simp [HashCut]

theorem crashes_programHeader : Crashes (programHeader t) ↔ HashCut t := by
  unfold programHeader
  rw [crashes_bind, crashes_hashWords]
  refine ⟨?_, .inl⟩
  rintro (h | ⟨hash, -, h⟩)
  · exact h
  · exact absurd h (not_crashes_pure _)

end Image

/-! ## Containers that never crash -/

namespace ObjectHeader

theorem not_crashes_replaceIn (t : Template) (b : Bytes) : ¬ Crashes (replaceIn t b) := by
  have honto : ∀ acc b, ¬ Crashes (replaceOnto t acc b) := by
    intro acc b
    fun_induction replaceOnto t acc b with
    | case1 acc b0 b1 b2 b3 b4 b5 b6 b7 b8 rest here hmarker f hat =>
      exact not_crashes_error (isOutOfRange_of_not_crashes (not_crashes_at? t _) hat)
    | case2 acc b0 b1 b2 b3 b4 b5 b6 b7 b8 rest here hmarker hat ih => exact ih
    | case3 acc b0 b1 b2 b3 b4 b5 b6 b7 b8 rest here hmarker header hat ih => exact ih
    | case4 acc b0 b1 b2 b3 b4 b5 b6 b7 b8 rest here hmarker ih => exact ih
    | case5 acc b => exact not_crashes_ok _
  exact honto [] b

theorem not_crashes_replaceInPages (t : Template) (f : Uf2.BlockFile) : ¬ Crashes (replaceInPages t f) := by
  refine not_crashes_foldlM (fun f number => ?_) _ _
  refine not_crashes_foldlM (fun f off => ?_) _ _
  refine not_crashes_bind (not_crashes_at? t _) fun header _ => ?_
  cases header with
  | none => exact not_crashes_pure _
  | some h => exact not_crashes_pure _

end ObjectHeader

namespace Uf2.BlockFile

theorem isOutOfRange_of_writeLines {f : BlockFile} {index : Nat} {upper : List Char} {lines : List String}
    {fault : Failure} (h : (f.writeLines index upper lines).2 = some fault) : fault.isOutOfRange = false := by
  induction lines generalizing f index upper with
  | nil => exact nomatch h
  | cons line rest ih =>
    unfold writeLines at h
    dsimp only at h
    split at h
    next => exact ih h
    next low data _ =>
      split at h
      next =>
        obtain rfl := Option.some.inj h
        rfl
      next =>
        split at h
        next =>
          obtain rfl := Option.some.inj h
          rfl
        next => exact ih h

end Uf2.BlockFile

namespace Image

variable {t : Template}

theorem not_crashes_writeRecords (f : Uf2.BlockFile) (lines : List String) : ¬ Crashes (writeRecords f lines) := by
  unfold writeRecords
  split
  next => exact not_crashes_ok _
  next hfault =>
    have hsecond : (f.writeLines 0 ['0', '0', '0', '0'] lines).2 = some _ := congrArg Prod.snd hfault
    exact not_crashes_error (Uf2.BlockFile.isOutOfRange_of_writeLines hsecond)

theorem not_crashes_linkBlocks (s : BuildState) (header : Bytes) (words : Words) (short : Bool) (start : Nat) :
    ¬ Crashes (linkBlocks t s header words short start) := by
  unfold linkBlocks
  refine not_crashes_bind (not_crashes_writeRecords _ _) fun f₁ _ => ?_
  refine not_crashes_bind (ObjectHeader.not_crashes_replaceInPages t _) fun f₂ _ => ?_
  dsimp only
  split
  · exact not_crashes_bind (not_crashes_pure _) fun f₃ _ => not_crashes_pure _
  · exact not_crashes_bind (not_crashes_writeRecords _ _) fun f₃ _ => not_crashes_pure _

end Image

namespace BootImage

/-- A step fails for an offset, and never for a bound. -/
theorem Layout.not_crashes_step (l : Layout) : ¬ Crashes l.step := by
  have hplace : ∀ piece mapped loose, ¬ Crashes (l.place piece mapped loose) := by
    intro piece mapped loose
    unfold Layout.place
    dsimp only
    split
    · exact not_crashes_error rfl
    · exact not_crashes_ok _
  unfold Layout.step
  split
  · exact not_crashes_ok l
  · dsimp only
    split
    · exact hplace _ _ _
    · split
      · exact not_crashes_error rfl
      · exact hplace _ _ _

theorem not_crashes_padSegments (segments : List Segment) (offset : Nat) : ¬ Crashes (padSegments segments offset) := by
  unfold padSegments
  obtain ⟨last, hreach, hnil | ⟨hne, f, hstep⟩⟩ := Layout.exists_end (Layout.ofSegments segments offset)
  · rw [hreach.run_eq, Layout.run_of_nil hnil]
    exact not_crashes_ok _
  · rw [hreach.run_eq, Layout.run_of_error hne hstep]
    exact not_crashes_error (isOutOfRange_of_not_crashes last.not_crashes_step hstep)

theorem not_crashes_serialize {img : BootImage} (h : img.header.length = headerSize) (digest : Bool) :
    ¬ Crashes (img.serialize digest) := by
  rw [serialize_eq h, crashes_map]
  exact not_crashes_padSegments _ _

end BootImage

namespace Image

variable {t : Template}

/-- Linking into a boot image that was read stays within its data. -/
theorem not_crashes_linkBoot {target : Target} {e : Extension} {boot : BootImage} (huse : target.useBootImage = true)
    (hparse : Template.parse target e = .ok t) (hboot : t.boot = some boot) (words : Words) :
    ¬ Crashes (linkBoot t words boot) := by
  obtain ⟨readOnly, hfrom⟩ := Template.fromBoot_of_parse huse hparse hboot
  obtain ⟨b, hb⟩ := hfrom.parsed
  obtain ⟨offset, hoffset, hmarker⟩ := hfrom.marker
  have hheader := (BootImage.of_parse hb).1
  unfold linkBoot
  refine not_crashes_bind (ObjectHeader.not_crashes_replaceIn t _) fun program _ => ?_
  rw [hfrom.readOnly]
  dsimp only
  split
  next => exact not_crashes_error rfl
  next =>
    -- the marker was found in the segment, so its bytes are all there
    have hfits : offset + Template.bootMarker.length ≤ readOnly.data.length := by
      have hle := hmarker.length_le
      have hpos : 0 < Template.bootMarker.length := by decide
      rw [length_drop] at hle
      omega
    rw [hoffset, if_neg (by rw [Int.toNat_natCast]; omega)]
    split
    next => exact not_crashes_error rfl
    next =>
      refine not_crashes_bind (BootImage.not_crashes_serialize ?_ _) fun file _ => not_crashes_pure _
      exact hheader

/-! ## Record lines -/

section Lines

variable (s : BuildState) (header : Bytes) (words : Words) (short : Bool)

/-- The lines of a template in front of the program. -/
def leadingLines (t : Template) : List String := t.lines.take t.codeStartLine.toNat

/-- Whether linking into record lines crashes: a line loses its place, or all placeholders are replaced and the line of
the marker is not in front of the program. -/
def LinesCrash (t : Template) : Prop :=
  ObjectHeader.LosesPlaces t (leadingLines t) ∨
    (∃ lines, ObjectHeader.replaceInLines t (leadingLines t) = .ok lines) ∧ t.codeStartLine ≤ t.jumpTableLine

theorem crashes_linkRecords (h : t.HoldsLines) :
    Crashes (linkRecords t s header words short t.codeStartLine.toNat t.jumpTableLine.toNat) ↔ LinesCrash t := by
  have hshort : IntelHex.Short (leadingLines t) := fun line hline => h.short line (mem_of_mem_take hline)
  have hlength : (leadingLines t).length = t.codeStartLine.toNat := length_take_of_le h.start_le
  have hstart := h.start
  have htable := h.table
  -- replacing keeps the number of lines, so the header's line is missing only where it was missing before
  unfold linkRecords leadingRecords LinesCrash
  rw [← ObjectHeader.crashes_replaceInLines hshort]
  constructor
  · intro hcrash
    obtain hcrash | ⟨leading, -, hcrash⟩ := crashes_bind.1 hcrash
    · obtain hcrash | ⟨lines, hlines, hcrash⟩ := crashes_bind.1 hcrash
      · exact .inl hcrash
      · have hsame := (ObjectHeader.replaceInLines_rewritten hshort hlines).length_eq
        refine .inr ⟨⟨lines, hlines⟩, ?_⟩
        split at hcrash
        next => exact absurd hcrash (not_crashes_pure _)
        next hrow => omega
    · exact absurd hcrash (not_crashes_pure _)
  · rintro (hcrash | ⟨⟨lines, hlines⟩, hrow⟩)
    · exact crashes_bind.2 (.inl (crashes_bind.2 (.inl hcrash)))
    · have hsame := (ObjectHeader.replaceInLines_rewritten hshort hlines).length_eq
      refine crashes_bind.2 (.inl (crashes_bind.2 (.inr ⟨lines, hlines, ?_⟩)))
      rw [if_neg (by omega)]
      exact (crashes_error _).2 rfl

end Lines

/-! ## All containers -/

variable {x : Template} {name : String} {s : BuildState} {words : Words} {short uf2 : Bool}

/-- Links a program that fits, behind its header. -/
def linkPayload (t : Template) (name : String) (s : BuildState) (payload : Words) (short uf2 : Bool) (header : Bytes) :
    Except Failure Image :=
  match t.boot, t.isVm, t.blob with
  | some boot, _, _ => linkBoot t payload boot
  | none, true, _ => return .binary (← ObjectHeader.replaceIn t payload.toBytes)
  | none, false, some blob => linkBlob t name header payload uf2 blob
  | none, false, none =>
    let start := t.codeStartLine.toNat
    if t.codeStartLine < 0 || t.lines.length < start || t.jumpTableLine < 0 then throw .noCodeStart
    else if uf2 then linkBlocks t s header payload short start
    else linkRecords t s header payload short start t.jumpTableLine.toNat

theorem link_eq_bind (hsize : sizeEntry words < sizeLimit) : link x name s words short uf2 =
      programHeader x >>= linkPayload x name s (payload x s.commSize words) short uf2 := by
  unfold link
  rw [if_neg (Nat.not_le.2 hsize)]
  rfl

/-- Linking crashes where the hash is cut, or behind a header that is complete. -/
theorem crashes_link : Crashes (link x name s words short uf2) ↔ sizeEntry words < sizeLimit ∧ (HashCut x ∨
    ∃ header, programHeader x = .ok header ∧
      Crashes (linkPayload x name s (payload x s.commSize words) short uf2 header)) := by
  by_cases hsize : sizeEntry words < sizeLimit
  · rw [link_eq_bind hsize, crashes_bind, crashes_programHeader]
    exact (and_iff_right hsize).symm
  · have hlarge : link x name s words short uf2 = .error (.programTooLarge (words.length * 2)) := by
      unfold link
      rw [if_pos (Nat.not_lt.1 hsize)]
      rfl
    rw [hlarge]
    exact ⟨fun h => absurd h (not_crashes_error rfl), fun h => absurd h.1 hsize⟩

/-- The templates that are read from three lines or more. -/
inductive ReadFromLines (x : Template) : Prop
  | boot (boot : BootImage) (hboot : x.boot = some boot) (hsafe : ∀ words, ¬ Crashes (linkBoot x words boot))
  | vm (hboot : x.boot = none) (hvm : x.isVm = true)
  | lines (hvm : x.isVm = false) (hlines : x.HoldsLines)

theorem readFromLines_of_parse {t : Target} {e : Extension} (hlines : 3 ≤ e.hex.length) (hshort : IntelHex.Short e.hex)
    (h : Template.parse t e = .ok x) : ReadFromLines x := by
  cases Template.form_of_parse h with
  | boot img segment huse hfrom => exact .boot img hfrom.boot fun words => not_crashes_linkBoot huse h hfrom.boot words
  | vm hvm heq =>
    subst heq
    exact .vm rfl (congrArg not hvm)
  | blob b data hvm hfew hfrom => omega
  | lines hvm hread => exact .lines hvm (Template.holdsLines_of_parseLines hshort hread).1

theorem not_crashes_linkPayload_blocks (h : ReadFromLines x) (payload : Words) (header : Bytes) :
    ¬ Crashes (linkPayload x name s payload short true header) := by
  unfold linkPayload
  cases h with
  | boot boot hboot hsafe =>
    rw [hboot]
    exact hsafe payload
  | vm hboot hvm =>
    rw [hboot, hvm]
    exact not_crashes_bind (ObjectHeader.not_crashes_replaceIn x _) fun b _ => not_crashes_pure _
  | lines hvm hlines =>
    rw [hlines.boot, hvm, hlines.blob]
    dsimp only
    split
    · exact not_crashes_error rfl
    · rw [if_pos rfl]
      exact not_crashes_linkBlocks s header payload short _

theorem crashes_linkPayload_lines (h : ReadFromLines x) (payload : Words) (header : Bytes) :
    Crashes (linkPayload x name s payload short false header) ↔ HasLines x ∧ LinesCrash x := by
  unfold linkPayload
  cases h with
  | boot boot hboot hsafe =>
    rw [hboot]
    refine ⟨fun h => absurd h (hsafe payload), ?_⟩
    rintro ⟨⟨hnone, -⟩, -⟩
    exact nomatch hboot.symm.trans hnone
  | vm hboot hvm =>
    rw [hboot, hvm]
    constructor
    · intro h
      refine absurd h (not_crashes_bind (ObjectHeader.not_crashes_replaceIn x _) fun b _ => not_crashes_pure _)
    · rintro ⟨⟨-, hnot, -⟩, -⟩
      exact nomatch hvm.symm.trans hnot
  | lines hvm hlines =>
    have hplace : ¬ (x.codeStartLine < 0 || x.lines.length < x.codeStartLine.toNat || x.jumpTableLine < 0) = true := by
      have hstart := hlines.start
      have hle := hlines.start_le
      have htable := hlines.table
      simp only [Bool.or_eq_true, decide_eq_true_iff]
      omega
    rw [hlines.boot, hvm, hlines.blob]
    dsimp only
    rw [if_neg hplace, if_neg Bool.false_ne_true, crashes_linkRecords s header payload short hlines]
    exact (and_iff_right ⟨hlines.boot, hvm, hlines.blob⟩).symm

/-- **All crashes.** Reading a template of three lines or more crashes exactly where the record that it ends at is
overlong. Linking with a template that was read crashes exactly where its hash is cut, and for record lines where one of
them loses its place or the marker stands behind the end of the template. -/
theorem crashes_iff {t : Target} {e : Extension} (hlines : 3 ≤ e.hex.length) (hshort : IntelHex.Short e.hex) :
    (Crashes (Template.parse t e) ↔
      t.useBootImage = false ∧ t.isNative = true ∧ Template.EndsOverlong t e) ∧
    ∀ x, Template.parse t e = .ok x → ∀ (name : String) (s : BuildState) (words : Words) (short : Bool),
      (Crashes (link x name s words short true) ↔ sizeEntry words < sizeLimit ∧ HashCut x) ∧
      (Crashes (link x name s words short false) ↔ sizeEntry words < sizeLimit ∧
        (HashCut x ∨ (∃ header, programHeader x = .ok header) ∧ HasLines x ∧ LinesCrash x)) := by
  refine ⟨Template.crashes_parse hlines, fun x hparse name s words short => ⟨?_, ?_⟩⟩
  · have hread := readFromLines_of_parse hlines hshort hparse
    rw [crashes_link]
    refine and_congr_right fun _ => or_iff_left ?_
    rintro ⟨header, -, hcrash⟩
    exact not_crashes_linkPayload_blocks hread _ header hcrash
  · have hread := readFromLines_of_parse hlines hshort hparse
    rw [crashes_link]
    refine and_congr_right fun _ => or_congr_right ?_
    simp only [crashes_linkPayload_lines hread, exists_and_right]

/-- A file whose marker stands in flash that programs may not use. -/
def behindFile : List IntelHex.Entry :=
  [.ofRow 0 (List.replicate 16 0), .ofRow 0x100 Template.blobMarker, .fileEnd]

theorem crashes_iff_behind :
    ∃ x, Template.parse (Template.pagedTarget 0x100) (Template.bareExtension behindFile) = .ok x ∧
      ¬ Crashes (link x "" {} [7] false true) ∧ Crashes (link x "" {} [7] false false) := by
  have hshort : IntelHex.Short (Template.bareExtension behindFile).hex := by decide +kernel
  have hread : (Template.parse (Template.pagedTarget 0x100) (Template.bareExtension behindFile)).toOption.map (fun x =>
      (x.boot, x.isVm, x.blob, (programHeader x).isOk,
        (ObjectHeader.replaceInLines x (leadingLines x)).isOk && decide (x.codeStartLine ≤ x.jumpTableLine),
        (Utf8.encode x.hashText).length)) = some (none, false, none, true, true, 16) := by decide +kernel
  obtain ⟨x, hparse, hfacts⟩ := exists_of_map_toOption hread
  simp only [Prod.mk.injEq] at hfacts
  obtain ⟨hboot, hvm, hblob, hheader, hbehind, hhash⟩ := hfacts
  obtain ⟨hreplaced, hbehind⟩ := Bool.and_eq_true_iff.1 hbehind
  obtain ⟨hblocks, hlines⟩ := (crashes_iff (by decide) hshort).2 x hparse "" {} [7] false
  refine ⟨x, hparse, fun hcrash => ?_, hlines.2 ⟨by decide, .inr ⟨exists_of_isOk hheader, ⟨hboot, hvm, hblob⟩,
    .inr ⟨exists_of_isOk hreplaced, of_decide_eq_true hbehind⟩⟩⟩⟩
  obtain ⟨-, i, hi, hcut, -⟩ := hblocks.1 hcrash
  omega

/-- An extension of given lines, with one function if it needs one. -/
def linesExtension (sha : String) (hex : List String) (functions : List FunctionInfo) : Extension :=
  { Template.bareExtension [] with sha, hex, functions }

/-- Each of the four crashes: the end of the template is overlong, the marker stands behind it, the hash is cut, and a
line loses its place. -/
theorem crashes_each :
    Crashes (Template.parse (Template.pagedTarget 0) (linesExtension "0123456789abcdef"
      [":100100000108010842424242010801083ED8E98D37", ":01011000AAAAAAAAAAAAAAAAAAAAAAAAAAAAAAAAAAA4",
        ":00000001FF"] [])) ∧
    (∃ x, Template.parse (Template.pagedTarget 0x100) (linesExtension "0123456789abcdef"
      [":1000000000000000000000000000000000000000F0", ":100100000108010842424242010801083ED8E98D37",
        ":00000001FF"] []) = .ok x ∧ Crashes (link x "" {} [7] false false)) ∧
    (∃ x, Template.parse (Template.pagedTarget 0) (linesExtension "00000000000000ı"
      [":100100000108010842424242010801083ED8E98D37", ":1001100001010101010101010101010101010101CF",
        ":00000001FF"] []) = .ok x ∧ Crashes (link x "" {} [7] false true)) ∧
    ∃ x, Template.parse (Template.pagedTarget 0) (linesExtension "0123456789abcdef"
      [":100100000108010842424242010801083ED8E98D37", ":1001100001100000000000000000000000000000CE",
        "                                        :08012000405058540102030491",
        ":1001300040505854403A6162000000000000000046", ":00000001FF"]
      [{ name := "pxt::string_inline_ascii_vt", argsFormat := ["_"] }]) = .ok x ∧
      Crashes (link x "" {} [7] false false) := by
  have hexists : ∀ {r : Except Failure Template} {uf2 : Bool},
      r.toOption.map (fun x => decide (Crashes (link x "" {} [7] false uf2))) = some true →
      ∃ x, r = .ok x ∧ Crashes (link x "" {} [7] false uf2) := by
    intro r uf2 h
    obtain ⟨x, hx, hcrash⟩ := exists_of_map_toOption h
    exact ⟨x, hx, of_decide_eq_true hcrash⟩
  exact ⟨by decide +kernel, hexists (by decide +kernel), hexists (by decide +kernel), hexists (by decide +kernel)⟩

end Image

end Firmware
