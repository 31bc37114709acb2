import Firmware.Proofs.Executable.Patching
import Firmware.Proofs.Image.Bounds
import Firmware.Proofs.Image.FlashedProgram
import Firmware.Proofs.Uf2.Gaps

/-!
# The program in every container

The program that goes into an image, with its slots filled, is found again byte by byte (`hasByte_of_link`): in the
memory that a boot image is loaded to, in the file of a virtual machine, behind a blob, or at the page that it was
linked at. Little may come over a byte of it (`Keeps`). In record lines and block files that is what follows the
program in the template; in a blob and in a boot image it is the header of a constant, whose placeholder has to stand in
the program. A virtual machine without a template knows no dispatch tables, so its programs have no placeholders that
are replaced (`replaceIn_ofVm`).
-/

namespace Firmware

namespace ObjectHeader

variable {t : Template} {b b' : Bytes} {i : Nat}

/-- Whether a header that replaces a placeholder goes over a byte. -/
def Overlaid (b : Bytes) (i : Nat) : Prop := ∃ j k, StandsAt b j k ∧ j ≤ i ∧ i < j + size

/-- Replacing placeholders leaves the other bytes. -/
theorem getElem?_replaceIn (h : replaceIn t b = .ok b') (hfree : ¬ Overlaid b i) : b'[i]? = b[i]? := by
  rw [replaceIn_eq] at h
  refine (replaced_of_visitAll (pairwise_fourthsFrom 0 b.length) h).frame i fun j _ k hstands => ?_
  by_contra hover
  exact hfree ⟨j, k, hstands, by omega, by omega⟩

/-- No header can be made with the address that stands for every function of a virtual machine. -/
theorem ofContent_sentinel {k : Kind} {content : Bytes} {h : ObjectHeader}
    (haddress : ∀ address, t.address? k.vtable = some address → address = Template.sentinel) :
    ofContent t k content ≠ .ok h := by
  intro hok
  unfold ofContent at hok
  split at hok
  next => exact nomatch hok
  next address hsome =>
    rw [haddress address hsome] at hok
    exact nomatch hok

end ObjectHeader

namespace Template

variable {t : Target} {e : Extension}

theorem value_of_mem_functions_ofVm {entry : String × FunctionInfo} (h : entry ∈ (ofVm t e).functions) :
    entry.2.value = sentinel := by
  -- on the functions, behind those that are in the table already
  have hfold : ∀ (fs : List FunctionInfo) (table : FunctionTable), (∀ entry ∈ table, entry.2.value = sentinel) →
      ∀ entry ∈ fs.foldl (fun fs f => FunctionTable.insert fs { f with value := sentinel }) table,
        entry.2.value = sentinel := by
    intro fs
    induction fs with
    | nil => exact fun _ htable => htable
    | cons f rest ih =>
      intro table htable
      refine ih _ fun entry hentry => ?_
      unfold FunctionTable.insert FunctionTable.put at hentry
      obtain hold | hnew := List.mem_append.1 hentry
      · exact htable entry (List.mem_filter.1 hold).1
      · obtain rfl := List.mem_singleton.1 hnew
        rfl
  exact hfold e.functions [] (fun _ hnil => nomatch hnil) entry h

/-- A dispatch table of a virtual machine has the address that all functions have. -/
theorem address?_ofVm (k : ObjectHeader.Kind) {address : UInt32} (h : (ofVm t e).address? k.vtable = some address) :
    address = sentinel := by
  have hname : (k.vtable == commBaseSymbol) = false := by cases k <;> rfl
  rw [address?, hname, if_neg Bool.false_ne_true] at h
  obtain ⟨f, hf, rfl⟩ := Option.map_eq_some_iff.1 h
  obtain ⟨front, back, htable, -⟩ := List.lookup_eq_some_iff.1 hf
  have hmem : (k.vtable, f) ∈ (ofVm t e).functions := by
    rw [htable]
    exact List.mem_append_right front List.mem_cons_self
  exact value_of_mem_functions_ofVm hmem

/-- The program of a virtual machine is taken as it is. -/
theorem replaceIn_ofVm {b b' : Bytes} (h : ObjectHeader.replaceIn (ofVm t e) b = .ok b') : b' = b := by
  rw [ObjectHeader.replaceIn_eq] at h
  have hreplaced := ObjectHeader.replaced_of_visitAll (ObjectHeader.pairwise_fourthsFrom 0 b.length) h
  refine List.ext_getElem? fun i => hreplaced.frame i fun j hj k hstands => ?_
  obtain ⟨header, hok, -⟩ := hreplaced.header j hj k hstands
  exact absurd hok (ObjectHeader.ofContent_sentinel fun _ => address?_ofVm k)

end Template

/-! ## Behind a blob -/

theorem Blob.template_of_parse {data : Bytes} {align : UInt32} {b : Blob} (h : parse data align = .ok b) :
    b.template = data := by
  unfold parse at h
  split at h
  next =>
    split at h
    next => exact nomatch h
    obtain ⟨header, -, h⟩ := exists_of_bind_eq_ok h
    split at h
    next => exact nomatch h
    next =>
      obtain rfl := Except.ok.inj h
      rfl
  next =>
    obtain rfl := Except.ok.inj h
    rfl

/-- A program stands behind the blob, if the place for it does. -/
theorem Blob.extends_of_patch {data prog res : Bytes} {align : UInt32} {b : Blob} (hparse : parse data align = .ok b)
    (hpatch : b.patch prog = .ok res) (hstart : data.length ≤ b.fileStart.toNat) :
    Extends res prog data.length b.fileStart.toNat := by
  have hextends := extends_resize data prog hstart
  unfold parse at hparse
  split at hparse
  next =>
    split at hparse
    next => exact nomatch hparse
    obtain ⟨h, hheader, hparse⟩ := exists_of_bind_eq_ok hparse
    split at hparse
    next => exact nomatch hparse
    next hwidth =>
    obtain rfl := Except.ok.inj hparse
    obtain ⟨i, -, -, hinside, rfl⟩ := patch_ofHeader (Executable.Header.describes_of_parse hheader hwidth) hpatch
    rw [← length_loadHeader (ofHeader h data align) prog.length.toUInt32] at hinside
    exact hextends.overwrite hinside hstart
  next =>
    obtain rfl := Except.ok.inj hparse
    obtain rfl := Except.ok.inj hpatch
    exact hextends

namespace Image

open IntelHex IntelHex.Entry Template Uf2 Uf2.BlockFile

variable {x : Template} {s : BuildState} {words : Words} {name : String} {image : Image} {i : Nat} {v : UInt8}

/-! ## What an image has of a program -/

/-- Whether the program in an image has a byte at an offset. A boot image has it in the memory that it is loaded to, and
the file of a virtual machine is the program. It stands behind a blob, and otherwise at its page. -/
def HasByte (x : Template) (image : Image) (i : Nat) (v : UInt8) : Prop :=
  match x.boot, x.isVm, x.blob with
  | some _, _, _ => ∃ parsed, BootImage.parse image.bytes = .ok parsed ∧
      BootImage.Covers parsed.segments (x.codeStart + i.toUInt32) v
  | none, true, _ => image.bytes[i]? = some v
  | none, false, some blob =>
    if x.target.useUf2 then image.HoldsAt (blob.fileStart + i.toUInt32) v
    else image.bytes[blob.fileStart.toNat + i]? = some v
  | none, false, none => image.HoldsAt (x.codeStartPadded + i.toUInt32) v

/-- Whether a program can be put into a boot image and loaded from there: its segments have room of their own, and there
are not too many of them. -/
structure FitsBoot (x : Template) (boot : BootImage) (program : Bytes) : Prop where
  space : ∀ s ∈ boot.segments, s.address.toNat + s.data.length ≤ 2 ^ 32
  apart : boot.segments.Pairwise BootImage.Segment.Apart
  few : ∀ laid, BootImage.padSegments (BootImage.updateReadOnly (extendReadOnly x x.markerOffset.toNat program)
    boot.segments) BootImage.headerSize = .ok laid → laid.length ≤ 255

/-- Whether nothing comes over a byte of a program on its way into the image. Behind a blob, a placeholder that starts
in the blob does not reach it either. -/
def Keeps (x : Template) (s : BuildState) (words : Words) (i : Nat) : Prop :=
  match x.boot, x.isVm, x.blob with
  | some boot, _, _ => ¬ ObjectHeader.Overlaid (slotWords s.commSize words).toBytes i ∧
      ∀ program, ObjectHeader.replaceIn x (payload x s.commSize words).toBytes = .ok program → FitsBoot x boot program
  | none, true, _ => True
  | none, false, some blob => ¬ ObjectHeader.Overlaid (slotWords s.commSize words).toBytes i ∧
      ObjectHeader.size ≤ i ∧ blob.template.length ≤ blob.fileStart.toNat ∧
      blob.fileStart.toNat + (slotWords s.commSize words).toBytes.length ≤ 2 ^ 32
  | none, false, none => ByteInPlace x s words i

theorem payload_of_unpadded (h : x.codePadding = 0) (commSize : UInt32) (words : Words) :
    payload x commSize words = slotWords commSize words := by
  rw [payload_eq, h]
  rfl

/-- What is linked behind a header. -/
theorem exists_linkPayload {short uf2 : Bool} (hlink : link x name s words short uf2 = .ok image) :
    ∃ header, programHeader x = .ok header ∧
      linkPayload x name s (payload x s.commSize words) short uf2 header = .ok image := by
  rw [link_eq_bind (of_link hlink).1] at hlink
  exact exists_of_bind_eq_ok hlink

/-- A placeholder that goes over a byte of a program behind a blob stands in the program. -/
theorem not_overlaid_of_extends {b prog : Bytes} {stop start : Nat} (h : Blob.Extends b prog stop start)
    (hi : ObjectHeader.size ≤ i) (hfree : ¬ ObjectHeader.Overlaid prog i) : ¬ ObjectHeader.Overlaid b (start + i) := by
  rintro ⟨j, k, hstands, hle, hlt⟩
  obtain ⟨d, rfl⟩ : ∃ d, j = start + d := ⟨j - start, by omega⟩
  refine hfree ⟨d, k, ?_, by omega, by omega⟩
  unfold ObjectHeader.StandsAt at hstands ⊢
  rwa [← List.drop_drop, h.program] at hstands

section Containers

variable {t : Target} {e : Extension}

theorem hasByte_boot {boot : BootImage} {first : BootImage.Segment} (huse : t.useBootImage = true)
    (hparse : parse t e = .ok x) (hfrom : FromBoot t e x boot first) {short uf2 : Bool}
    (hlink : link x name s words short uf2 = .ok image) (hkeeps : Keeps x s words i)
    (hv : (slotWords s.commSize words).toBytes[i]? = some v) : HasByte x image i v := by
  have hboot := hfrom.boot
  simp only [Keeps, hboot] at hkeeps
  obtain ⟨hfree, hfits⟩ := hkeeps
  obtain ⟨b, hb⟩ := hfrom.parsed
  obtain ⟨program, hprogram⟩ :
      ∃ program, ObjectHeader.replaceIn x (payload x s.commSize words).toBytes = .ok program := by
    obtain ⟨header, -, hpayload⟩ := exists_linkPayload hlink
    simp only [linkPayload, hboot] at hpayload
    obtain ⟨program, hprogram, -⟩ := exists_of_bind_eq_ok hpayload
    exact ⟨program, hprogram⟩
  obtain ⟨hspace, hapart, hfew⟩ := hfits program hprogram
  -- the file is there, so its segments were laid out
  obtain ⟨laid, hlaid⟩ : ∃ laid, BootImage.padSegments (BootImage.updateReadOnly
      (extendReadOnly x x.markerOffset.toNat program) boot.segments) BootImage.headerSize = .ok laid := by
    obtain ⟨-, -, img, digest, file, hsame, hsegments, hfile, -⟩ := of_link_boot hboot hlink hprogram hfrom.readOnly
    rw [BootImage.serialize_eq (by rw [hsame]; exact (BootImage.of_parse hb).1), hsegments] at hfile
    cases hlaid : BootImage.padSegments (BootImage.updateReadOnly
      (extendReadOnly x x.markerOffset.toNat program) boot.segments) BootImage.headerSize with
    | error f =>
      rw [hlaid] at hfile
      exact nomatch hfile
    | ok laid => exact ⟨laid, rfl⟩
  obtain ⟨_, file, parsed, -, -, rfl, hparsed, hholds⟩ :=
    holdsProgram_of_link huse hparse hboot hspace hapart hlink hprogram hlaid (hfew laid hlaid)
  rw [payload_of_unpadded hfrom.padding] at hprogram
  simp only [HasByte, hboot]
  exact ⟨parsed, hparsed, hholds.code i v ((ObjectHeader.getElem?_replaceIn hprogram hfree).trans hv)⟩

theorem hasByte_vm (hvm : t.isNative = false) {short uf2 : Bool}
    (hlink : link (ofVm t e) name s words short uf2 = .ok image)
    (hv : (slotWords s.commSize words).toBytes[i]? = some v) : HasByte (ofVm t e) image i v := by
  have hisVm : (ofVm t e).isVm = true := by
    unfold isVm
    exact congrArg not hvm
  have hboot : (ofVm t e).boot = none := rfl
  obtain ⟨header, -, hpayload⟩ := exists_linkPayload hlink
  simp only [linkPayload, hisVm, hboot] at hpayload
  obtain ⟨program, hprogram, hpayload⟩ := exists_of_bind_eq_ok hpayload
  obtain rfl := Except.ok.inj hpayload
  obtain rfl := replaceIn_ofVm hprogram
  simp only [HasByte, hisVm, hboot]
  rw [payload_of_unpadded rfl]
  exact hv

theorem hasByte_blob {blob : Blob} {data : Bytes} (hvm : x.isVm = false) (hfrom : FromBlob t e x blob data)
    {short : Bool} (hlink : link x name s words short x.target.useUf2 = .ok image) (hkeeps : Keeps x s words i)
    (hv : (slotWords s.commSize words).toBytes[i]? = some v) : HasByte x image i v := by
  have hboot := hfrom.boot
  have hblob := hfrom.blob
  simp only [Keeps, hboot, hvm, hblob] at hkeeps
  obtain ⟨hfree, hbehind, hstart, hspace⟩ := hkeeps
  have htable := hfrom.table
  have hi := (List.getElem?_eq_some_iff.1 hv).1
  rw [Blob.template_of_parse hfrom.parsed] at hstart
  obtain ⟨header, hheader, hpayload⟩ := exists_linkPayload hlink
  have hlength := length_programHeader hheader
  simp only [linkPayload, hboot, hvm, hblob, payload_of_unpadded hfrom.padding] at hpayload
  obtain ⟨linked, hpatch, hpayload⟩ := exists_of_bind_eq_ok hpayload
  dsimp only at hpayload
  split at hpayload
  next => exact nomatch hpayload
  next hinside =>
  obtain ⟨final, hfinal, hpayload⟩ := exists_of_bind_eq_ok hpayload
  -- neither the header of the program nor that of a constant goes over the byte
  have hover : x.jumpTable.toNat + header.length ≤ data.length := by omega
  have hextends := (Blob.extends_of_patch hfrom.parsed hpatch hstart).overwrite hover hstart
  have hbyte : final[blob.fileStart.toNat + i]? = some v := by
    rw [ObjectHeader.getElem?_replaceIn hfinal (not_overlaid_of_extends hextends hbehind hfree), ← List.getElem?_drop,
      hextends.program, hv]
  simp only [HasByte, hboot, hvm, hblob]
  split at hpayload
  next huf2 =>
    rw [if_pos huf2]
    obtain rfl := Except.ok.inj hpayload
    have hfinalLength : final.length ≤ 2 ^ 32 := by
      rw [ObjectHeader.length_of_replaceIn hfinal, hextends.length]
      exact hspace
    have hsound := (records_named x.target.family (Utf8.encode (executableName name))).sound
    refine byteAt?_parse_serialize (hsound.write ⟨0, final⟩ 0) ?_
    refine hsound.byteAt?_write_of_eq_some (w := ⟨0, final⟩) hfinalLength 0 ?_
    have hplace : (blob.fileStart + i.toUInt32 - 0).toNat = blob.fileStart.toNat + i := by
      rw [UInt32.sub_zero, UInt32.toNat_add, UInt32.toNat_ofNat_of_lt' (by show i < 4294967296; omega),
        Nat.mod_eq_of_lt (by omega)]
    rw [Write.byteAt?, hplace, hbyte]
    rfl
  next huf2 =>
    rw [if_neg huf2]
    obtain rfl := Except.ok.inj hpayload
    exact hbyte

/-- **The program in an image.** What is linked into a template that was read is found in the image, whatever the
container, unless something comes over it. -/
theorem hasByte_of_link (hshort : Short e.hex) (hparse : parse t e = .ok x)
    (hlink : link x name s words false x.target.useUf2 = .ok image) (hkeeps : Keeps x s words i)
    (hv : (slotWords s.commSize words).toBytes[i]? = some v) : HasByte x image i v := by
  cases form_of_parse hparse with
  | boot img segment huse hfrom => exact hasByte_boot huse hparse hfrom hlink hkeeps hv
  | vm hvm heq =>
    subst heq
    exact hasByte_vm hvm hlink hv
  | blob blob data hvm hfew hfrom => exact hasByte_blob hvm hfrom hlink hkeeps hv
  | lines hvm hread =>
    obtain ⟨_, _, _, _, hfrom⟩ := exists_fromLines hread
    simp only [Keeps, hfrom.boot, hvm, hfrom.blob] at hkeeps
    simp only [HasByte, hfrom.boot, hvm, hfrom.blob]
    exact holdsAt_of_link hshort hparse ⟨hfrom.boot, hvm, hfrom.blob⟩ hkeeps hv hlink

end Containers

end Image
end Firmware
