import Firmware.Proofs.Build.Leftovers
import Firmware.Proofs.Image.FlashedProgram

/-!
# The hash in a checksum block

The checksum block tells how many pages the program fills, and the first word of its hash (`Checksum.Covers`). Both are
worked out when the block is cut off the assembled words. Only then does linking put the sizes into their slots, so the
block covers the program of the assembler, and not the one in flash. It covers that one exactly if the slots do not
change the first word of the hash (`run_covers_iff`), as in programs that end in front of their slots (`flashed_of_le`).
-/

open List

namespace Firmware

namespace Checksum

variable {block : Words}

/-- The words in front of the checksum block. -/
def programOf (words : Words) : Words := words.take (words.length - size * 2)

/-- The first word of the hash of bytes, high byte first. -/
def hashWord (b : Bytes) : Nat := Bytes.number .big 4 ((Sha256.digest b).take 4)

/-- Whether a block tells the number of pages of some bytes and the first word of their hash. -/
structure Covers (page : UInt32) (block : Words) (b : Bytes) : Prop where
  pages : block[11]?.map UInt16.toNat = some ((b.length + page.toNat - 1) / page.toNat)
  low : block[12]? = some (hashWord b).toUInt16
  high : block[13]? = some (hashWord b / 65536).toUInt16

theorem hashWord_lt (b : Bytes) : hashWord b < 2 ^ 32 := by
  have hlength : (((Sha256.digest b).take 4).take 4).length ≤ 4 := length_take_le ..
  calc hashWord b
      < (0 + 1) * 256 ^ (((Sha256.digest b).take 4).take 4).length := Numeral.bigEndian_lt 0 _
    _ ≤ 2 ^ 32 := by
      rw [Nat.zero_add, Nat.one_mul]
      exact Nat.pow_le_pow_right (by decide) hlength

/-- A block that covers some bytes covers as many others exactly if their hashes start with the same word. -/
theorem Covers.iff {page : UInt32} {b b' : Bytes} (h : Covers page block b) (hlength : b'.length = b.length) :
    Covers page block b' ↔ hashWord b = hashWord b' := by
  constructor
  · intro h'
    have hlow := UInt16.toNat_inj.2 (Option.some.inj (h.low.symm.trans h'.low))
    have hhigh := UInt16.toNat_inj.2 (Option.some.inj (h.high.symm.trans h'.high))
    have hlt := hashWord_lt b
    have hlt' := hashWord_lt b'
    have hnat : ∀ n : Nat, n.toUInt16.toNat = n % 65536 := fun _ => UInt16.toNat_ofNat'
    rw [hnat, hnat] at hlow hhigh
    omega
  · intro heq
    exact ⟨by rw [hlength]; exact h.pages, heq ▸ h.low, heq ▸ h.high⟩

/-- A completed block covers its program, if that has fewer pages than 16 bits can count. -/
theorem covers_complete {t : Template} {program : Words} (hblock : block.length = size * 2)
    (hpages : (program.length * 2 + t.target.pageSize.toNat - 1) / t.target.pageSize.toNat < 65536) :
    Covers t.target.pageSize (complete t block program) program.toBytes := by
  have hsize : size * 2 = 16 := rfl
  refine ⟨?_, ?_, ?_⟩
  · rw [complete, getElem?_set_ne (by decide), getElem?_set_ne (by decide),
      getElem?_set_self (by omega), Option.map_some, Words.length_toBytes, Nat.mul_comm 2]
    exact congrArg some (UInt16.toNat_ofNat_of_lt' hpages)
  · rw [complete, getElem?_set_ne (by decide), getElem?_set_self (by rw [length_set]; omega)]
    rfl
  · rw [complete, getElem?_set_self (by rw [length_set, length_set]; omega)]
    rfl

/-- The block that is cut off is what follows the program, completed. -/
theorem of_extract {t : Template} {words program : Words} {labels : List (String × UInt32)}
    (h : extract t words labels = .ok (program, block)) :
    size * 2 ≤ words.length ∧ program = programOf words ∧
      block = complete t (words.drop (words.length - size * 2)) program := by
  unfold extract at h
  dsimp only at h
  split at h
  next => exact nomatch h
  next position _ =>
    split at h
    next => exact nomatch h
    next hplace =>
      obtain ⟨rfl, rfl⟩ := Prod.mk.inj (Except.ok.inj h)
      rw [Bool.or_eq_true, not_or, decide_eq_true_eq] at hplace
      exact ⟨Nat.le_of_not_lt hplace.1, rfl, rfl⟩

/-- The block can be made from the hash of any source. -/
theorem exists_stub (t : Template) (text : String) : ∃ b, stub t (Source.hash text) = .ok b := by
  have hascii : ∀ c ∈ (Sha256.digest (Utf8.encode text)).flatMap (Hexadecimal.pair Hexadecimal.lowerDigit),
      c.toNat < 0x80 := fun c hc => (Hexadecimal.digit?_of_mem_lower hc).1
  have hdigits : ∀ b ∈ Utf8.takeBytes 8 (Source.hash text), ∃ d < 16, Numeral.digit? b = some d := by
    intro b hb
    have hmem := mem_of_mem_take hb
    rw [Source.hash, Hexadecimal.lower, Utf8.encode_ofList hascii] at hmem
    obtain ⟨c, hc, rfl⟩ := mem_map.1 hmem
    exact (Hexadecimal.digit?_of_mem_lower hc).2
  have hlength : (Utf8.takeBytes 8 (Source.hash text)).length = 8 := by
    rw [Utf8.takeBytes, Source.hash, Hexadecimal.lower, Utf8.encode_ofList hascii]
    rfl
  have hfit : (0 + 1) * 16 ^ (Utf8.takeBytes 8 (Source.hash text)).length ≤ 1 <<< 32 - 1 + 1 := by
    rw [hlength]
    decide
  obtain ⟨m, hm⟩ := Numeral.exists_accumulate hdigits hfit
  have hread : Numeral.read (.fixed 16) 32 (Utf8.takeBytes 8 (Source.hash text)) = .ok m := by
    rw [Numeral.read, if_neg]
    · exact hm
    · rw [List.isEmpty_iff]
      intro hnil
      rw [hnil] at hlength
      exact nomatch hlength
  rw [stub]
  dsimp only
  rw [if_neg (by omega), hread]
  exact ⟨_, rfl⟩

end Checksum

namespace Build

open IntelHex IntelHex.Entry Image Template

variable {x : Template} {p : Program} {f : Assembler Id} {s s' : BuildState} {r : BuildResult}
variable {program : Words} {a : Assembled}

/-- The state with the size of the comm section, if the assembler told where it ends. -/
def withComm (x : Template) (a : Assembled) (s : BuildState) : BuildState :=
  if a.commEnd == 0 then s else { s with commSize := a.commEnd - x.commBase }

/-- The steps of finishing a build. -/
theorem exists_of_finish {source : Bytes} (h : finish x p source a s = (.ok r, s')) :
    ∃ program, cutChecksum x a (withComm x a s) = (.ok program, s') ∧
      link x p.name s' program false x.target.useUf2 = .ok r.image := by
  unfold finish at h
  dsimp only at h
  split at h
  next => exact nomatch (Prod.mk.inj h).1
  next program s₁ hcut =>
    split at h
    next => exact nomatch (Prod.mk.inj h).1
    next image hlink =>
      obtain ⟨hr, rfl⟩ := Prod.mk.inj h
      obtain rfl := Except.ok.inj hr
      exact ⟨program, hcut, hlink⟩

/-- The steps of a build. -/
theorem exists_of_run (hrun : run f x p s = (.ok r, s')) :
    ∃ source s₁ a program, prepare x p s = (.ok source, s₁) ∧ f source x = .ok a ∧
      cutChecksum x a (withComm x a s₁) = (.ok program, s') ∧
      link x p.name s' program false x.target.useUf2 = .ok r.image := by
  cases hprepare : prepare x p s with
  | mk prepared s₁ =>
    cases prepared with
    | error e =>
      simp only [run, hprepare] at hrun
      cases (Prod.mk.inj hrun).1
    | ok source =>
      cases hassemble : f source x with
      | error e =>
        simp only [run, hprepare, hassemble] at hrun
        cases (Prod.mk.inj hrun).1
      | ok a =>
        simp only [run, hprepare, hassemble] at hrun
        obtain ⟨program, hcut, hlink⟩ := exists_of_finish hrun
        exact ⟨source, s₁, a, program, rfl, hassemble, hcut, hlink⟩

/-- A build that comes to link its program ends as linking does. -/
theorem run_eq {source : Bytes} {s₁ : BuildState} (hprepare : prepare x p s = (.ok source, s₁))
    (hassemble : f source x = .ok a) (hcut : cutChecksum x a (withComm x a s₁) = (.ok program, s')) :
    run f x p s = ((link x p.name s' program false x.target.useUf2).map fun image =>
      { imageName := x.target.outputName, image, files := outputFiles x p s' source a image,
        breakpoints := placeBreakpoints p.breakpoints a.labels }, s') := by
  have hfinish : finish x p source a s₁ = ((link x p.name s' program false x.target.useUf2).map fun image =>
      { imageName := x.target.outputName, image, files := outputFiles x p s' source a image,
        breakpoints := placeBreakpoints p.breakpoints a.labels }, s') := by
    rw [withComm] at hcut
    unfold finish
    simp only [hcut]
    cases link x p.name s' program false x.target.useUf2 <;> rfl
  simp only [run, hprepare, hassemble]
  exact hfinish

/-- What is cut off for a target that has a checksum block, which goes into the state. -/
theorem exists_of_cutChecksum (haddress : x.target.flashChecksumAddress ≠ 0) (h : cutChecksum x a s = (.ok program, s')) :
    ∃ block, Checksum.extract x a.words a.labels = .ok (program, block) ∧
      s' = { s with checksumBlock := some block } := by
  rw [cutChecksum, if_neg (by simpa using haddress)] at h
  split at h
  next => exact nomatch (Prod.mk.inj h).1
  next words block hextract =>
    obtain ⟨hwords, rfl⟩ := Prod.mk.inj h
    obtain rfl := Except.ok.inj hwords
    exact ⟨block, hextract, rfl⟩

/-- The number of pages of a program that can be linked fits in the block, as the pages of a template are not smaller
than its rows. -/
theorem pages_lt {page : UInt32} (hpage : 16 ≤ page.toNat) (hsize : sizeEntry program < sizeLimit) :
    (program.length * 2 + page.toNat - 1) / page.toNat < 65536 := by
  unfold sizeEntry sizeLimit at hsize
  rw [Nat.div_lt_iff_lt_mul (by omega)]
  calc program.length * 2 + page.toNat - 1
      < 16 * 65535 + page.toNat := by omega
    _ ≤ page.toNat * 65535 + page.toNat := Nat.add_le_add_right (Nat.mul_le_mul_right _ hpage) _
    _ = 65536 * page.toNat := by omega

variable {t : Target} {e : Extension}

/-- The block of a build covers the assembled program, which is the one that is linked. -/
theorem covers_of_run (hpage : t.pageSize ≠ 0) (hshort : Short e.hex) (hparse : parse t e = .ok x)
    (hlines : HasLines x) (haddress : t.flashChecksumAddress ≠ 0) (hrun : run f x p s = (.ok r, s')) :
    ∃ source a block, (prepare x p s).1 = .ok source ∧ f source x = .ok a ∧ Checksum.size * 2 ≤ a.words.length ∧
      s'.checksumBlock = some block ∧ Checksum.Covers t.pageSize block (Checksum.programOf a.words).toBytes ∧
      link x p.name s' (Checksum.programOf a.words) false x.target.useUf2 = .ok r.image := by
  have hread := parseLines_of_hasLines hlines hparse
  obtain rfl := (holdsLines_of_parseLines hshort hread).2
  obtain ⟨source, s₁, a, program, hprepare, hassemble, hcut, hlink⟩ := exists_of_run hrun
  obtain ⟨block, hextract, rfl⟩ := exists_of_cutChecksum haddress hcut
  obtain ⟨hlength, rfl, hcomplete⟩ := Checksum.of_extract hextract
  refine ⟨source, a, block, congrArg Prod.fst hprepare, hassemble, hlength, rfl, ?_, hlink⟩
  obtain ⟨read, m, marker, ending, hends⟩ := exists_endsAt hread
  have hrows : (nextPage x.codeStart x.target.pageSize - x.codeStart) &&& 0xf = 0 := by
    rw [← hends.padded, ← hends.padding]
    exact hends.rows
  rw [hcomplete]
  refine Checksum.covers_complete ?_ (pages_lt (le_pageSize hpage hrows) (of_link hlink).1)
  rw [length_drop]
  omega

/-- **The hash of a program and its image.** A build cuts the checksum block off the assembled words. The block covers
the program in front of it. If the program stays in its place, then the image holds it with its slots filled, and the
block covers what the image holds exactly if the slots do not change the first word of the hash. -/
theorem run_covers_iff (hpage : t.pageSize ≠ 0) (hshort : Short e.hex) (hparse : parse t e = .ok x)
    (hlines : HasLines x) (haddress : t.flashChecksumAddress ≠ 0) (hrun : run f x p s = (.ok r, s')) :
    ∃ source a block, (prepare x p s).1 = .ok source ∧ f source x = .ok a ∧ Checksum.size * 2 ≤ a.words.length ∧
      s'.checksumBlock = some block ∧ Checksum.Covers t.pageSize block (Checksum.programOf a.words).toBytes ∧
      (InPlace x s' (Checksum.programOf a.words) →
        r.image.Holds x.codeStartPadded (flashed s'.commSize (Checksum.programOf a.words)).toBytes ∧
        ∀ b : Bytes, b.length = 2 * (Checksum.programOf a.words).length → r.image.Holds x.codeStartPadded b →
          (Checksum.Covers t.pageSize block b ↔ Checksum.hashWord (Checksum.programOf a.words).toBytes =
            Checksum.hashWord (flashed s'.commSize (Checksum.programOf a.words)).toBytes)) := by
  obtain ⟨source, a, block, hprepare, hassemble, hlength, hblock, hcovers, hlink⟩ :=
    covers_of_run hpage hshort hparse hlines haddress hrun
  refine ⟨source, a, block, hprepare, hassemble, hlength, hblock, hcovers, fun hplace => ?_⟩
  have hholds := holds_of_link hshort hparse hlines hplace hlink
  refine ⟨hholds, fun b hb hheld => ?_⟩
  obtain rfl := hheld.unique hholds (by rw [hb, length_toBytes_flashed, Words.length_toBytes])
  exact hcovers.iff (length_toBytes_flashed ..)

/-! ## Programs with and without slots -/

/-- A target with a checksum block. -/
def blockTarget (useUf2 : Bool) : Target := { rowTarget 0 with flashChecksumAddress := 0x40, useUf2 }

/-- A file with a table for programs and nothing behind it. -/
def tableFile : List Entry := [ofRow 0x0100 blobMarker, ofRow 0x0110 (List.replicate 16 1), fileEnd]

/-- What an assembler makes of a program with a checksum block. -/
def withBlock (program : Words) : Assembled where
  words := program ++ List.replicate (Checksum.size * 2) 0
  labels := [(Checksum.label, (2 * program.length).toUInt32)]

/-- The state that a build of a program with a checksum block ends in, where it has the given hash and statistics. -/
def stateOf (hash : String) (stats : TableStats) (block : Words) : BuildState where
  sourceHash := hash
  checksumBlock := some block
  tableStats := stats

/-- Whether a program with a checksum block can be built, and stays in its place. -/
def builds (x : Template) (program : Words) : Bool :=
  decide (x.boot = none ∧ x.isVm = false ∧ x.blob = none) && (Program.assembly {} x).1.isOk &&
    match Checksum.extract x (withBlock program).words (withBlock program).labels with
    | .ok (words, block) =>
      (link x "" (stateOf "" {} block) words false x.target.useUf2).isOk &&
        decide (InPlace x (stateOf "" {} block) words)
    | .error _ => false

/-- An assembler that gives a program with a checksum block. -/
def blockAssembler (program : Words) : Assembler Id := fun _ _ => .ok (withBlock program)

/-- A program without source to keep always comes to the assembler, with a state that has its hash and statistics. -/
theorem prepare_of_text {text : String} (htext : (Program.assembly {} x).1 = .ok text) :
    ∃ source hash stats, prepare x {} {} = (.ok source, { sourceHash := hash, tableStats := stats }) := by
  obtain ⟨stub, hstub⟩ := Checksum.exists_stub x text
  simp only [prepare, embedSource, htext]
  by_cases haddress : x.target.flashChecksumAddress = 0
  · rw [if_pos (beq_iff_eq.2 haddress)]
    exact ⟨_, _, _, rfl⟩
  · rw [if_neg (by simpa using haddress)]
    show ∃ source hash stats, ((Checksum.stub x (Source.hash text)).map _, _) = _
    rw [hstub]
    exact ⟨_, _, _, rfl⟩

theorem exists_run_of_builds (haddress : x.target.flashChecksumAddress ≠ 0) (h : builds x program = true) :
    HasLines x ∧ ∃ r s', run (blockAssembler program) x {} {} = (.ok r, s') ∧ s'.commSize = 0 ∧
      InPlace x s' (Checksum.programOf (withBlock program).words) := by
  unfold builds at h
  rw [Bool.and_eq_true, Bool.and_eq_true, decide_eq_true_eq] at h
  obtain ⟨⟨hlines, htext⟩, h⟩ := h
  refine ⟨hlines, ?_⟩
  obtain ⟨text, htext⟩ := exists_of_isOk htext
  obtain ⟨source, hash, stats, hprepare⟩ := prepare_of_text htext
  split at h
  next words block hextract =>
    rw [Bool.and_eq_true, decide_eq_true_eq] at h
    obtain ⟨hlink, hplace⟩ := h
    obtain ⟨image, hlink⟩ := exists_of_isOk hlink
    -- linking does not read the hash and the statistics
    have hlink : link x "" (stateOf hash stats block) words false x.target.useUf2 = .ok image :=
      (link_congr rfl (fun _ => ⟨rfl, rfl⟩) ..).trans hlink
    obtain ⟨-, rfl, -⟩ := Checksum.of_extract hextract
    have hcut : cutChecksum x (withBlock program) { sourceHash := hash, tableStats := stats } =
        (.ok (Checksum.programOf (withBlock program).words), stateOf hash stats block) := by
      rw [cutChecksum, if_neg (by simpa using haddress), hextract]
      rfl
    have hassemble : blockAssembler program source x = .ok (withBlock program) := rfl
    have hrun := run_eq hprepare hassemble hcut
    rw [hlink] at hrun
    exact ⟨_, stateOf hash stats block, hrun, rfl, hplace.ends, hplace.base, hplace.behind⟩
  next => exact absurd h Bool.false_ne_true

/-- A program that ends in front of its slots. -/
def shortProgram : Words := (List.range 17).map Nat.toUInt16

theorem run_covers_blocks :
    ∃ (x : Template) (r : BuildResult) (s' : BuildState) (block : Words),
      parse (blockTarget true) (bareExtension tableFile) = .ok x ∧
      run (blockAssembler shortProgram) x {} {} = (.ok r, s') ∧ InPlace x s' shortProgram ∧
      s'.checksumBlock = some block ∧ r.image.Holds x.codeStartPadded shortProgram.toBytes ∧
      ∀ b : Bytes, b.length = 34 → r.image.Holds x.codeStartPadded b → Checksum.Covers 16 block b := by
  have hread : (parse (blockTarget true) (bareExtension tableFile)).toOption.map (fun x =>
      (builds x shortProgram, x.target.flashChecksumAddress)) = some (true, 0x40) := by decide +kernel
  have hshort : Short (bareExtension tableFile).hex := by decide +kernel
  obtain ⟨x, hparse, hfacts⟩ := exists_of_map_toOption hread
  obtain ⟨hbuilds, haddress⟩ := Prod.mk.inj hfacts
  obtain ⟨hlines, r, s', hrun, hcomm, hplace⟩ := exists_run_of_builds (by rw [haddress]; decide) hbuilds
  obtain ⟨source, a, block, -, hassemble, -, hblock, -, hall⟩ :=
    run_covers_iff (by decide) hshort hparse hlines (by decide) hrun
  obtain rfl := Except.ok.inj hassemble
  obtain ⟨hholds, hall⟩ := hall hplace
  have hprogram : Checksum.programOf (withBlock shortProgram).words = shortProgram := by decide
  rw [hprogram, hcomm, flashed_of_le 0 (by decide)] at hholds hall
  rw [hprogram] at hplace
  exact ⟨x, r, s', block, hparse, hrun, hplace, hblock, hholds, fun b hb hheld => (hall b hb hheld).2 rfl⟩

/-- A program with slots, in which it has something of its own. -/
def slottedProgram : Words := (List.range 22).map Nat.toUInt16

/-- The block of a program with slots does not cover what is flashed. -/
theorem not_covers_slotted :
    ∃ (x : Template) (r : BuildResult) (s' : BuildState) (block : Words) (b : Bytes),
      parse (blockTarget false) (bareExtension tableFile) = .ok x ∧
      run (blockAssembler slottedProgram) x {} {} = (.ok r, s') ∧ InPlace x s' slottedProgram ∧
      s'.checksumBlock = some block ∧ b.length = 2 * slottedProgram.length ∧ r.image.Holds x.codeStartPadded b ∧
      ¬ Checksum.Covers 16 block b := by
  have hread : (parse (blockTarget false) (bareExtension tableFile)).toOption.map (fun x =>
      (builds x slottedProgram, x.target.flashChecksumAddress)) = some (true, 0x40) := by decide +kernel
  have hshort : Short (bareExtension tableFile).hex := by decide +kernel
  obtain ⟨x, hparse, hfacts⟩ := exists_of_map_toOption hread
  obtain ⟨hbuilds, haddress⟩ := Prod.mk.inj hfacts
  obtain ⟨hlines, r, s', hrun, hcomm, hplace⟩ := exists_run_of_builds (by rw [haddress]; decide) hbuilds
  obtain ⟨source, a, block, -, hassemble, -, hblock, hcovers, hlink⟩ :=
    covers_of_run (by decide) hshort hparse hlines (by decide) hrun
  obtain rfl := Except.ok.inj hassemble
  have hholds := holds_of_link hshort hparse hlines hplace hlink
  have hprogram : Checksum.programOf (withBlock slottedProgram).words = slottedProgram := by decide
  rw [hprogram] at hcovers hplace hholds
  rw [hcomm] at hholds
  refine ⟨x, r, s', block, _, hparse, hrun, hplace, hblock, ?_, hholds, ?_⟩
  · rw [Words.length_toBytes, length_flashed]
  · have hhash : Checksum.hashWord slottedProgram.toBytes ≠ Checksum.hashWord (flashed 0 slottedProgram).toBytes := by
      decide +kernel
    exact fun h => hhash ((hcovers.iff (length_toBytes_flashed ..)).1 h)

end Build
end Firmware
