import Firmware.Proofs.Build.ProgramHash
import Firmware.Proofs.Image.EmittedProgram

/-!
# Sizes in a program

A program carries two sizes in words of 16 bits: its own, in units of eight bytes, and that of the comm section. Linking
refuses programs whose size would not fit, so the first one is exact wherever a build ends well. The second one is the
distance of two addresses, which is taken in 32 bits and then cut to 16. Nothing looks at it, so it is exact only where
the comm section ends behind its base and is smaller than 64 KiB (`run_slots_iff`).
-/

namespace Firmware

/-- The distance of two addresses survives in 16 bits exactly if it is not negative and fits. -/
theorem toUInt16_sub_eq_iff (a b : UInt32) :
    ((a - b).toUInt16.toNat : Int) = a.toNat - b.toNat ↔ b ≤ a ∧ a.toNat - b.toNat < 65536 := by
  have ha := a.toNat_lt
  have hb := b.toNat_lt
  rw [UInt32.toNat_toUInt16, UInt32.toNat_sub, UInt32.le_iff_toNat_le]
  omega

namespace Image

open IntelHex Template

variable {x : Template} {s : BuildState} {words : Words} {name : String} {image : Image} {slot : Nat}

/-- Whether the program in an image has a word at a place, low byte first. -/
def HasWord (x : Template) (image : Image) (slot : Nat) (w : UInt16) : Prop :=
  HasByte x image (2 * slot) w.toUInt8 ∧ HasByte x image (2 * slot + 1) (w >>> 8).toUInt8

/-- Whether nothing comes over a word of a program on its way into the image. -/
def KeepsWord (x : Template) (s : BuildState) (words : Words) (slot : Nat) : Prop :=
  Keeps x s words (2 * slot) ∧ Keeps x s words (2 * slot + 1)

/-- The slots of a program are in its image. -/
theorem hasWord_of_link {t : Target} {e : Extension} (hshort : Short e.hex) (hparse : parse t e = .ok x)
    (hlink : link x name s words false x.target.useUf2 = .ok image) (hslot : slot ≤ commSlot)
    (hkeeps : KeepsWord x s words slot) : HasWord x image slot (programWord s.commSize words slot) := by
  have hword : (slotWords s.commSize words)[slot]? = some (programWord s.commSize words slot) := by
    rw [slotWords, getElem?_slots, if_pos (by omega)]
  refine ⟨hasByte_of_link hshort hparse hlink hkeeps.1 ?_, hasByte_of_link hshort hparse hlink hkeeps.2 ?_⟩
  · rw [Words.getElem?_toBytes, show 2 * slot / 2 = slot by omega, hword]
    simp
  · rw [Words.getElem?_toBytes, show (2 * slot + 1) / 2 = slot by omega, hword]
    simp

theorem programWord_commSlot (commSize : UInt32) (words : Words) :
    programWord commSize words commSlot = commSize.toUInt16 := by
  rw [programWord, if_neg (by decide), if_pos rfl]

/-- The size of a program that can be linked fits in its slot. -/
theorem toNat_sizeEntry (hsize : sizeEntry words < sizeLimit) :
    (programWord s.commSize words sizeSlot).toNat = (2 * words.length + 7) / 8 := by
  rw [programWord, if_pos rfl, Nat.mul_comm]
  exact UInt16.toNat_ofNat_of_lt' (Nat.lt_trans hsize (by decide))

end Image

namespace Build

open IntelHex IntelHex.Entry Image Template

variable {x : Template} {p : Program} {f : Assembler Id} {s s' : BuildState} {a : Assembled} {program : Words}

/-- Whether a build comes to link a program that an assembler made, without its checksum block. -/
structure Links (f : Assembler Id) (x : Template) (p : Program) (s : BuildState) (a : Assembled) (program : Words) :
    Prop where
  assembled : ∃ source, (prepare x p s).1 = .ok source ∧ f source x = .ok a
  cut : (cutChecksum x a {}).1 = .ok program

/-- What is cut off does not depend on the state. -/
theorem cutChecksum_fst (x : Template) (a : Assembled) (s s' : BuildState) :
    (cutChecksum x a s).1 = (cutChecksum x a s').1 := by
  unfold cutChecksum
  split
  · rfl
  · split <;> rfl

/-- What is cut off is the checksum block of a target that has one, and the size of the comm section stays. -/
theorem of_cutChecksum (h : cutChecksum x a s = (.ok program, s')) :
    program = (if x.target.flashChecksumAddress = 0 then a.words else Checksum.programOf a.words) ∧
      s'.commSize = s.commSize := by
  by_cases haddress : x.target.flashChecksumAddress = 0
  · rw [cutChecksum, if_pos (beq_iff_eq.2 haddress), Prod.mk.injEq, Except.ok.injEq] at h
    obtain ⟨rfl, rfl⟩ := h
    exact ⟨(if_pos haddress).symm, rfl⟩
  · obtain ⟨block, hextract, rfl⟩ := exists_of_cutChecksum haddress h
    exact ⟨(Checksum.of_extract hextract).2.1.trans (if_neg haddress).symm, rfl⟩

/-- A program that is too large is refused. -/
theorem run_of_large (h : Links f x p s a program) (hlarge : sizeLimit ≤ sizeEntry program) :
    (run f x p s).1 = .error (.programTooLarge (2 * program.length)) := by
  obtain ⟨⟨source, hsource, hassemble⟩, hcut⟩ := h
  cases hprepare : prepare x p s with
  | mk prepared s₁ =>
    rw [hprepare] at hsource
    obtain rfl : prepared = .ok source := hsource
    rw [cutChecksum_fst x a {} (withComm x a s₁)] at hcut
    cases hcut₁ : cutChecksum x a (withComm x a s₁) with
    | mk cut s₂ =>
      rw [hcut₁] at hcut
      obtain rfl : cut = .ok program := hcut
      have hlink : link x p.name s₂ program false x.target.useUf2 = .error (.programTooLarge (2 * program.length)) := by
        unfold link
        rw [if_pos hlarge, Nat.mul_comm]
        rfl
      rw [run_eq hprepare hassemble hcut₁, hlink]
      rfl

/-- **The sizes in a program.** A build refuses a program that is too large. The image of one that ends well has the
exact size of its program, without the checksum block, in the slot for it. The slot for the size of the comm section has
the distance of its end from its base in 16 bits, and this is exact only if it is not negative and fits there. -/
theorem run_slots_iff {t : Target} {e : Extension} (hshort : Short e.hex) (hparse : parse t e = .ok x)
    (f : Assembler Id) (p : Program) (s : BuildState) :
    (∀ a program, Links f x p s a program → sizeLimit ≤ sizeEntry program →
      (run f x p s).1 = .error (.programTooLarge (2 * program.length))) ∧
    ∀ r s', run f x p s = (.ok r, s') → ∃ a program, Links f x p s a program ∧
      program = (if x.target.flashChecksumAddress = 0 then a.words else Checksum.programOf a.words) ∧
      (KeepsWord x s' program sizeSlot → ∃ size, HasWord x r.image sizeSlot size ∧
        size.toNat = (2 * program.length + 7) / 8) ∧
      (a.commEnd ≠ 0 → KeepsWord x s' program commSlot → ∃ comm, HasWord x r.image commSlot comm ∧
        comm = (a.commEnd - x.commBase).toUInt16 ∧
        ((comm.toNat : Int) = a.commEnd.toNat - x.commBase.toNat ↔
          x.commBase ≤ a.commEnd ∧ a.commEnd.toNat - x.commBase.toNat < 65536)) := by
  refine ⟨fun a program hlinks hlarge => run_of_large hlinks hlarge, fun r s' hrun => ?_⟩
  obtain ⟨source, s₁, a, program, hprepare, hassemble, hcut, hlink⟩ := exists_of_run hrun
  obtain ⟨hprogram, hcomm⟩ := of_cutChecksum hcut
  have hlinks : Links f x p s a program := by
    refine ⟨⟨source, congrArg Prod.fst hprepare, hassemble⟩, ?_⟩
    rw [cutChecksum_fst x a {} (withComm x a s₁), hcut]
  refine ⟨a, program, hlinks, hprogram, fun hkeeps => ?_, fun hend hkeeps => ?_⟩
  · exact ⟨_, hasWord_of_link hshort hparse hlink (by decide) hkeeps, toNat_sizeEntry (of_link hlink).1⟩
  · have hslot : programWord s'.commSize program commSlot = (a.commEnd - x.commBase).toUInt16 := by
      rw [programWord_commSlot, hcomm, withComm, if_neg (by simpa using hend)]
    refine ⟨_, hasWord_of_link hshort hparse hlink (Nat.le_refl _) hkeeps, hslot, ?_⟩
    rw [hslot]
    exact toUInt16_sub_eq_iff _ _

/-! ## Comm sections that fit, and others -/

/-- An assembler that gives a program with a comm section. -/
def commAssembler (words : Words) (commEnd : UInt32) : Assembler Id := fun _ _ => .ok { words, commEnd }

/-- A program without a checksum block is linked as it is. -/
theorem exists_links {words : Words} {commEnd : UInt32} (haddress : x.target.flashChecksumAddress = 0)
    (htext : (Program.assembly {} x).1.isOk = true) :
    Links (commAssembler words commEnd) x {} {} { words, commEnd } words := by
  obtain ⟨text, htext⟩ := exists_of_isOk htext
  obtain ⟨source, hash, stats, hprepare⟩ := prepare_of_text htext
  refine ⟨⟨source, congrArg Prod.fst hprepare, rfl⟩, ?_⟩
  rw [cutChecksum, if_pos (beq_iff_eq.2 haddress)]

theorem exists_run_of_link {words : Words} {commEnd : UInt32} (haddress : x.target.flashChecksumAddress = 0)
    (hend : commEnd ≠ 0) (htext : (Program.assembly {} x).1.isOk = true)
    (hlink : (link x "" { commSize := commEnd - x.commBase } words false x.target.useUf2).isOk = true) :
    ∃ r hash stats, run (commAssembler words commEnd) x {} {} =
        (.ok r, { commSize := commEnd - x.commBase, sourceHash := hash, tableStats := stats }) ∧
      link x "" { commSize := commEnd - x.commBase } words false x.target.useUf2 = .ok r.image := by
  obtain ⟨text, htext⟩ := exists_of_isOk htext
  obtain ⟨source, hash, stats, hprepare⟩ := prepare_of_text htext
  obtain ⟨image, hlink⟩ := exists_of_isOk hlink
  -- linking does not read the hash and the statistics
  have hsame : link x "" { commSize := commEnd - x.commBase, sourceHash := hash, tableStats := stats } words false
      x.target.useUf2 = .ok image := (link_congr rfl (fun _ => ⟨rfl, rfl⟩) ..).trans hlink
  have hcut : cutChecksum x { words, commEnd } (withComm x { words, commEnd }
      { sourceHash := hash, tableStats := stats }) =
        (.ok words, { commSize := commEnd - x.commBase, sourceHash := hash, tableStats := stats }) := by
    rw [cutChecksum, if_pos (beq_iff_eq.2 haddress), withComm, if_neg (by simpa using hend)]
  have hassemble : commAssembler words commEnd source x = .ok { words, commEnd } := rfl
  have hrun := run_eq hprepare hassemble hcut
  rw [hsame] at hrun
  exact ⟨_, hash, stats, hrun, hlink⟩

/-- Whether a program with a comm section can be linked into record lines, and nothing goes over its slots. -/
def settles (x : Template) (words : Words) (commEnd : UInt32) : Bool :=
  (Program.assembly {} x).1.isOk && (link x "" { commSize := commEnd - x.commBase } words false x.target.useUf2).isOk &&
    decide (x.boot = none ∧ x.isVm = false ∧ x.blob = none) &&
    decide (∀ slot ∈ [sizeSlot, commSlot], ByteInPlace x { commSize := commEnd - x.commBase } words (2 * slot) ∧
      ByteInPlace x { commSize := commEnd - x.commBase } words (2 * slot + 1))

theorem run_slots_fitting :
    ∃ (x : Template) (r : BuildResult) (s' : BuildState),
      parse (rowTarget 0) (bareExtension tableFile) = .ok x ∧ x.commBase = 0x20000000 ∧
      run (commAssembler slottedProgram 0x20001234) x {} {} = (.ok r, s') ∧
      HasWord x r.image sizeSlot 6 ∧ HasWord x r.image commSlot 0x1234 ∧
      (run (commAssembler (List.replicate 256000 0) 0x20001234) x {} {}).1 = .error (.programTooLarge 512000) := by
  have hread : (parse (rowTarget 0) (bareExtension tableFile)).toOption.map (fun x =>
      (settles x slottedProgram 0x20001234, x.target.flashChecksumAddress, x.commBase)) =
        some (true, 0, 0x20000000) := by decide +kernel
  have hshort : Short (bareExtension tableFile).hex := by decide +kernel
  obtain ⟨x, hparse, hfacts⟩ := exists_of_map_toOption hread
  simp only [Prod.mk.injEq, settles, Bool.and_eq_true, decide_eq_true_eq] at hfacts
  obtain ⟨⟨⟨⟨htext, hlink⟩, hboot, hvm, hblob⟩, hplace⟩, haddress, hbase⟩ := hfacts
  obtain ⟨r, hash, stats, hrun, -⟩ := exists_run_of_link haddress (by decide) htext hlink
  obtain ⟨-, hslots⟩ := run_slots_iff hshort hparse (commAssembler slottedProgram 0x20001234) {} {}
  obtain ⟨a, program, hlinks, hprogram, hsize, hcomm⟩ := hslots r _ hrun
  obtain ⟨source, -, hassemble⟩ := hlinks.assembled
  obtain rfl := Except.ok.inj hassemble
  rw [if_pos haddress] at hprogram
  subst hprogram
  have hkeeps : ∀ slot ∈ [sizeSlot, commSlot], KeepsWord x
      { commSize := 0x20001234 - x.commBase, sourceHash := hash, tableStats := stats } slottedProgram slot := by
    intro slot hslot
    obtain ⟨hlow, hhigh⟩ := hplace slot hslot
    simp only [KeepsWord, Keeps, hboot, hvm, hblob]
    exact ⟨⟨hlow.ends, hlow.base, hlow.behind⟩, ⟨hhigh.ends, hhigh.base, hhigh.behind⟩⟩
  obtain ⟨size, hsize, hvalue⟩ := hsize (hkeeps sizeSlot (by decide))
  obtain ⟨comm, hcomm, hdistance, -⟩ := hcomm (by decide) (hkeeps commSlot (by decide))
  obtain rfl : size = 6 := UInt16.toNat_inj.1 (hvalue.trans (by decide))
  obtain rfl : comm = 0x1234 := by
    rw [hdistance, hbase]
    decide
  refine ⟨x, r, _, hparse, hbase, hrun, hsize, hcomm, ?_⟩
  have hlarge := (run_slots_iff hshort hparse (commAssembler (List.replicate 256000 0) 0x20001234) {} {}).1 _ _
    (exists_links haddress htext) (by rw [sizeEntry, List.length_replicate]; decide)
  rwa [List.length_replicate] at hlarge

/-- A target for bytecode. -/
def bytecodeTarget : Target := { rowTarget 0 with nativeType := "vm" }

/-- A comm section of 64 KiB gets the size zero, and one that ends in front of its base nearly 64 KiB. -/
theorem run_slots_cut :
    ∃ (x : Template), parse bytecodeTarget (bareExtension []) = .ok x ∧ x.commBase = 0x20000000 ∧
      (∃ r s', run (commAssembler [7] 0x20010000) x {} {} = (.ok r, s') ∧ HasWord x r.image commSlot 0) ∧
      ∃ r s', run (commAssembler [7] 0x1FFFFFFF) x {} {} = (.ok r, s') ∧ HasWord x r.image commSlot 0xFFFF := by
  have hread : (parse bytecodeTarget (bareExtension [])).toOption.map (fun x =>
      ((Program.assembly {} x).1.isOk && (link x "" { commSize := 0x10000 } [7] false x.target.useUf2).isOk &&
        (link x "" { commSize := 0xFFFFFFFF } [7] false x.target.useUf2).isOk && x.boot.isNone && x.isVm,
        x.target.flashChecksumAddress, x.commBase)) = some (true, 0, 0x20000000) := by decide +kernel
  have hshort : Short (bareExtension []).hex := by decide +kernel
  obtain ⟨x, hparse, hfacts⟩ := exists_of_map_toOption hread
  simp only [Prod.mk.injEq, Bool.and_eq_true, Option.isNone_iff_eq_none] at hfacts
  obtain ⟨⟨⟨⟨⟨htext, hlarge⟩, hnegative⟩, hboot⟩, hvm⟩, haddress, hbase⟩ := hfacts
  have hcut : ∀ (commEnd commSize : UInt32) (w : UInt16), commEnd ≠ 0 → commEnd - 0x20000000 = commSize →
      commSize.toUInt16 = w → (link x "" { commSize } [7] false x.target.useUf2).isOk = true →
      ∃ r s', run (commAssembler [7] commEnd) x {} {} = (.ok r, s') ∧ HasWord x r.image commSlot w := by
    rintro commEnd commSize w hend rfl rfl hlink
    rw [← hbase] at hlink ⊢
    obtain ⟨r, hash, stats, hrun, hok⟩ := exists_run_of_link haddress hend htext hlink
    have hkeeps : KeepsWord x { commSize := commEnd - x.commBase } [7] commSlot := by
      simp only [KeepsWord, Keeps, hboot, hvm, and_self]
    have hword := hasWord_of_link hshort hparse hok (Nat.le_refl _) hkeeps
    rw [programWord_commSlot] at hword
    exact ⟨r, _, hrun, hword⟩
  exact ⟨x, hparse, hbase, hcut _ _ _ (by decide) (by decide) (by decide) hlarge,
    hcut _ _ _ (by decide) (by decide) (by decide) hnegative⟩

end Build
end Firmware
