import Firmware.Proofs.Bytes
import Firmware.Proofs.Template.Scan

/-!
# The forms of a template

A template that is accepted is a boot image, the empty one of a virtual machine, a blob or record lines (`Form`,
`form_of_parse`). For each of them this module says where the parts of the template come from, whatever its text looks
like: `FromBoot`, `FromBlob` and `FromLines`.
-/

namespace Firmware
namespace Template

variable {t : Target} {e : Extension} {x : Template}

/-! ## Boot images -/

/-- A template that is a boot image, with the program behind its read-only data. -/
structure FromBoot (t : Target) (e : Extension) (x : Template) (img : BootImage) (segment : BootImage.Segment) :
    Prop where
  sha : x.sha = e.sha
  target : x.target = t
  boot : x.boot = some img
  parsed : ∃ b, BootImage.parse b = .ok img
  readOnly : img.readOnly? = some segment
  start : x.codeStart = alignUp segment.stop t.pageSize
  padding : x.codePadding = 0
  marker : ∃ offset : Nat, x.markerOffset = offset ∧ bootMarker <+: segment.data.drop offset

theorem exists_fromBoot (h : parseBoot t e = .ok x) : ∃ img segment, FromBoot t e x img segment := by
  obtain ⟨img, himg, h⟩ := exists_of_bind_eq_ok h
  split at h
  next segment hsegment =>
    dsimp only at h
    split at h
    next offset hfind =>
      obtain ⟨pointers, -, h⟩ := exists_of_bind_eq_ok h
      obtain ⟨functions, -, h⟩ := exists_of_bind_eq_ok h
      obtain rfl := Except.ok.inj h
      have hparsed : ∃ b, BootImage.parse b = .ok img := by
        unfold BootImage.parseLines at himg
        split at himg
        · exact nomatch himg
        · exact ⟨_, himg⟩
      have hmarker := List.isPrefixOf_iff_prefix.1 (Bytes.of_findFrom hfind).2
      exact ⟨img, segment, rfl, rfl, rfl, hparsed, hsegment, rfl, rfl, offset, rfl, hmarker⟩
    next => exact nomatch h
  next => exact nomatch h

theorem fromBoot_of_parse {img : BootImage} (huse : t.useBootImage = true) (h : parse t e = .ok x)
    (hboot : x.boot = some img) : ∃ segment, FromBoot t e x img segment := by
  rw [parse, if_pos huse] at h
  obtain ⟨img', segment, hfrom⟩ := exists_fromBoot h
  obtain rfl : img' = img := Option.some.inj (hfrom.boot.symm.trans hboot)
  exact ⟨segment, hfrom⟩

/-! ## Blobs -/

/-- A template that is a blob, with the jump table in it. -/
structure FromBlob (t : Target) (e : Extension) (x : Template) (b : Blob) (data : Bytes) : Prop where
  sha : x.sha = e.sha
  target : x.target = t
  boot : x.boot = none
  blob : x.blob = some b
  parsed : Blob.parse data t.pageSize = .ok b
  padding : x.codePadding = 0
  table : x.jumpTable.toNat + 16 ≤ data.length

theorem exists_fromBlob {text : String} (h : parseBlob t e text = .ok x) : ∃ b data, FromBlob t e x b data := by
  unfold parseBlob at h
  dsimp only at h
  split at h
  next =>
    obtain ⟨data, -, h⟩ := exists_of_bind_eq_ok h
    obtain ⟨b, hb, h⟩ := exists_of_bind_eq_ok h
    split at h
    next offset hfind =>
      obtain ⟨pointers, -, h⟩ := exists_of_bind_eq_ok h
      obtain ⟨functions, -, h⟩ := exists_of_bind_eq_ok h
      obtain rfl := Except.ok.inj h
      refine ⟨b, data, rfl, rfl, rfl, rfl, hb, rfl, ?_⟩
      have hmarker := (List.isPrefixOf_iff_prefix.1 (Bytes.of_findFrom hfind).2).length_le
      have hlength : blobMarker.length = 16 := rfl
      rw [List.length_drop, hlength] at hmarker
      have hle : offset.toUInt32.toNat ≤ offset := by
        rw [show offset.toUInt32.toNat = offset % 2 ^ 32 from UInt32.toNat_ofNat']
        exact Nat.mod_le ..
      show offset.toUInt32.toNat + 16 ≤ _
      omega
    next => exact nomatch h
  next => exact nomatch h

/-! ## Record lines -/

/-- A template that is made of the lines `hex`: it ends at `last`, whose row is completed to `ending`. -/
structure FromLines (t : Target) (e : Extension) (x : Template) (hex : List String) (last mark : Mark)
    (ending : Ending) : Prop where
  sha : x.sha = e.sha
  target : x.target = t
  boot : x.boot = none
  blob : x.blob = none
  read : e.hex.mapM withUpperAddress = .ok hex
  stop : (Scan.run t {} 0 hex).stop = some last
  marker : (Scan.run t {} 0 hex).marker = some mark
  ends : endAt t hex last = .ok ending
  lines : x.lines = ending.lines
  start : x.codeStart = ending.address
  startLine : x.codeStartLine = ending.lastLine + 1
  padded : x.codeStartPadded = nextPage x.codeStart t.pageSize
  padding : x.codePadding = x.codeStartPadded - x.codeStart
  table : x.jumpTable = mark.address
  tableLine : x.jumpTableLine = ending.shift mark.line

theorem exists_fromLines (h : parseLines t e = .ok x) :
    ∃ hex last mark ending, FromLines t e x hex last mark ending := by
  obtain ⟨hex, hhex, h⟩ := exists_of_bind_eq_ok h
  dsimp only at h
  obtain ⟨found, hfound, h⟩ := exists_of_bind_eq_ok h
  split at h
  next mark hmark =>
    split at h
    next ending =>
      obtain ⟨pointers, -, h⟩ := exists_of_bind_eq_ok h
      obtain ⟨functions, -, h⟩ := exists_of_bind_eq_ok h
      obtain rfl := Except.ok.inj h
      cases hlast : (Scan.run t {} 0 hex).stop with
      | none =>
        rw [hlast] at hfound
        exact nomatch hfound
      | some last =>
        rw [hlast] at hfound
        obtain ⟨ending', hending, hfound⟩ := exists_of_bind_eq_ok hfound
        obtain rfl : ending' = ending := Option.some.inj (Except.ok.inj hfound)
        exact ⟨hex, last, mark, ending', rfl, rfl, rfl, rfl, hhex, hlast, hmark, hending, rfl, rfl, rfl, rfl, rfl,
          rfl, rfl⟩
    next => exact nomatch h
  next => exact nomatch h

/-! ## All templates -/

/-- What a template was read as. -/
inductive Form (t : Target) (e : Extension) (x : Template) : Prop
  | boot (img : BootImage) (segment : BootImage.Segment) (huse : t.useBootImage = true)
      (h : FromBoot t e x img segment)
  | vm (hvm : t.isNative = false) (heq : x = ofVm t e)
  | blob (b : Blob) (data : Bytes) (hvm : x.isVm = false) (hfew : e.hex.length ≤ 2) (h : FromBlob t e x b data)
  | lines (hvm : x.isVm = false) (hread : parseLines t e = .ok x)

theorem form_of_parse (h : parse t e = .ok x) : Form t e x := by
  unfold parse at h
  split at h
  next huse =>
    obtain ⟨img, segment, hboot⟩ := exists_fromBoot h
    exact .boot img segment huse hboot
  next =>
    split at h
    next hvm => exact .vm (by simpa using hvm) (Except.ok.inj h).symm
    next hvm =>
      have hnative : x.target = t → x.isVm = false := by
        rintro rfl
        exact Bool.eq_false_iff.2 hvm
      have hread : ∀ text, e.hex.length ≤ 2 → parseBlob t e text = .ok x → Form t e x := by
        intro text hfew hread
        obtain ⟨b, data, hblob⟩ := exists_fromBlob hread
        exact .blob b data (hnative hblob.target) hfew hblob
      split at h
      next => exact nomatch h
      next hone => exact hread _ (by simp [hone]) h
      next htwo => exact hread _ (by simp [htwo]) h
      next =>
        obtain ⟨_, _, _, _, hlines⟩ := exists_fromLines h
        exact .lines (hnative hlines.target) h

end Template
end Firmware
