import Firmware.Build.Basic
import Firmware.Proofs.Image.StateLines

/-!
# What earlier builds leave

The state of a build starts with what an earlier build left in it. This module says once what a build does with that
(`run_cases`): the source and the words do not depend on it, and each of three fields goes into the image unless the
build sets it itself. So builds give the same if they start with the same in the fields that they do not set. Where the
image is made of record lines this is all there is: a build gives the same from all states only if it sets all three
(`run_eq_of_same_leftovers`). Not every build does (`run_after_other_target`).
-/

namespace Firmware

namespace Build

variable {t : Template} {p : Program}

/-! ## What a build does with a state -/

/-- The source does not depend on the state, and the packed source does only where the program has none to keep. -/
theorem prepare_cases (t : Template) (p : Program) : (∃ f, ∀ s, ∃ s', prepare t p s = (.error f, s')) ∨
      ∃ source stats hash packed, ∀ s : BuildState, prepare t p s = (.ok source, ⟨s.commSize, hash,
        if p.embedSource = none then s.packedSource else packed, s.checksumBlock, stats⟩) := by
  have hembed : ∃ text packed, ∀ s, embedSource t.target p s =
      (text, { s with packedSource := if p.embedSource = none then s.packedSource else packed }) := by
    unfold embedSource
    cases p.embedSource with
    | none => exact ⟨"", none, fun s => rfl⟩
    | some blob =>
      dsimp only
      split
      · exact ⟨_, none, fun s => rfl⟩
      · exact ⟨_, _, fun s => rfl⟩
  obtain ⟨kept, packed, hembed⟩ := hembed
  unfold prepare
  dsimp only
  cases htext : (p.assembly t).1 with
  | error f => exact .inl ⟨f, fun s => ⟨_, rfl⟩⟩
  | ok text =>
    simp only [hembed]
    by_cases hblock : (t.target.flashChecksumAddress == 0) = true
    · simp only [hblock, if_true]
      exact .inr ⟨_, _, _, packed, fun s => rfl⟩
    · simp only [hblock, Bool.false_eq_true, if_false]
      cases Checksum.stub t (Source.withHash text).2 with
      | error f => exact .inl ⟨f, fun s => ⟨_, rfl⟩⟩
      | ok stub => exact .inr ⟨_, _, _, packed, fun s => rfl⟩

/-- The words do not depend on the state, and the checksum block does only where the target has none. -/
theorem cutChecksum_cases (t : Template) (a : Assembled) :
    (∃ f, ∀ s, cutChecksum t a s = (.error f, s)) ∨ ∃ words block, ∀ s, cutChecksum t a s = (.ok words,
      { s with checksumBlock := if t.target.flashChecksumAddress = 0 then s.checksumBlock else block }) := by
  unfold cutChecksum
  by_cases hblock : t.target.flashChecksumAddress = 0
  · simp only [hblock, beq_self_eq_true, if_true]
    exact .inr ⟨a.words, none, fun s => rfl⟩
  · simp only [beq_eq_false_iff_ne.2 hblock, Bool.false_eq_true, if_false, hblock]
    cases Checksum.extract t a.words a.labels with
    | error f => exact .inl ⟨f, fun s => rfl⟩
    | ok result => exact .inr ⟨result.1, some result.2, fun s => rfl⟩

/-- The result that comes with an image. -/
def resultOf (t : Template) (p : Program) (stats : TableStats) (source : Bytes) (a : Assembled) (image : Image) :
    BuildResult where
  imageName := t.target.outputName
  image
  files := outputFiles t p { tableStats := stats } source a image
  breakpoints := placeBreakpoints p.breakpoints a.labels

/-- What is assembled is linked with the size of its comm section, if it has one, and with its checksum block, if the
target has one. -/
theorem finish_cases (t : Template) (p : Program) (source : Bytes) (a : Assembled) :
    (∃ e, ∀ s, (finish t p source a s).1 = .error e) ∨ ∃ words block, ∀ s, (finish t p source a s).1 =
      (Image.link t p.name { s with
        commSize := if a.commEnd = 0 then s.commSize else a.commEnd - t.commBase
        checksumBlock := if t.target.flashChecksumAddress = 0 then s.checksumBlock else block } words false
        t.target.useUf2).map (resultOf t p s.tableStats source a) := by
  have hcomm : ∀ s : BuildState,
      (if (a.commEnd == 0) = true then s else { s with commSize := a.commEnd - t.commBase }) =
        { s with commSize := if a.commEnd = 0 then s.commSize else a.commEnd - t.commBase } := by
    intro s
    by_cases hend : a.commEnd = 0 <;> simp [hend]
  unfold finish
  simp only [hcomm]
  obtain ⟨e, hcut⟩ | ⟨words, block, hcut⟩ := cutChecksum_cases t a
  · exact .inl ⟨e, fun s => by simp only [hcut]⟩
  · refine .inr ⟨words, block, fun s => ?_⟩
    simp only [hcut]
    split
    next e hlink =>
      rw [hlink]
      rfl
    next image hlink =>
      rw [hlink]
      rfl

/-- What linking gets of the state that a build starts with, where the build has the given hash and statistics, and sets
the packed source and the checksum block to the given ones if it sets them. -/
def carried (t : Template) (p : Program) (a : Assembled) (hash : String) (packed : Option Bytes) (block : Option Words)
    (stats : TableStats) (s : BuildState) : BuildState where
  commSize := if a.commEnd = 0 then s.commSize else a.commEnd - t.commBase
  sourceHash := hash
  packedSource := if p.embedSource = none then s.packedSource else packed
  checksumBlock := if t.target.flashChecksumAddress = 0 then s.checksumBlock else block
  tableStats := stats

/-- A build fails before it comes to linking, whatever the state; or it links the same words, with what it carries of
the state. -/
theorem run_cases (f : Assembler Id) (t : Template) (p : Program) : (∃ e, ∀ s, (run f t p s).1 = .error e) ∨
      ∃ source a words hash packed block stats, (∀ s, (prepare t p s).1 = .ok source) ∧ f source t = .ok a ∧
        ∀ s, (run f t p s).1 = (Image.link t p.name (carried t p a hash packed block stats s) words false
          t.target.useUf2).map (resultOf t p stats source a) := by
  obtain ⟨e, hprepare⟩ | ⟨source, stats, hash, packed, hprepare⟩ := prepare_cases t p
  · refine .inl ⟨e, fun s => ?_⟩
    obtain ⟨s', hs⟩ := hprepare s
    simp only [run, hs]
    rfl
  cases hassemble : f source t with
  | error e =>
    refine .inl ⟨.assembling e, fun s => ?_⟩
    simp only [run, hprepare s, hassemble]
    rfl
  | ok a =>
    have hrun : ∀ s, run f t p s = finish t p source a ⟨s.commSize, hash,
        if p.embedSource = none then s.packedSource else packed, s.checksumBlock, stats⟩ := by
      intro s
      simp only [run, hprepare s, hassemble]
      rfl
    obtain ⟨e, hfinish⟩ | ⟨words, block, hfinish⟩ := finish_cases t p source a
    · exact .inl ⟨e, fun s => by rw [hrun, hfinish]⟩
    · refine .inr ⟨source, a, words, hash, packed, block, stats, fun s => by rw [hprepare s], hassemble, fun s => ?_⟩
      rw [hrun, hfinish]
      rfl

/-! ## Results that do not depend on the state -/

/-- Whether two states have the same in the fields that a build does not set: the size of the comm section, in 16 bits,
and for record lines the packed source and the checksum block. -/
structure SameLeftovers (t : Template) (p : Program) (a : Assembled) (s s' : BuildState) : Prop where
  commSize : a.commEnd = 0 → s.commSize.toUInt16 = s'.commSize.toUInt16
  packedSource : Image.HasLines t → p.embedSource = none → s.packedSource = s'.packedSource
  checksumBlock : Image.HasLines t → t.target.flashChecksumAddress = 0 → s.checksumBlock = s'.checksumBlock

theorem run_congr {f : Assembler Id} {s s' : BuildState}
    (h : ∀ source a, (prepare t p {}).1 = .ok source → f source t = .ok a → SameLeftovers t p a s s') :
    (run f t p s).1 = (run f t p s').1 := by
  obtain ⟨e, hrun⟩ | ⟨source, a, words, hash, packed, block, stats, hprepare, hassemble, hrun⟩ := run_cases f t p
  · rw [hrun, hrun]
  obtain ⟨hcomm, hpacked, hblock⟩ := h source a (hprepare {}) hassemble
  -- what a build sets is the same, and what it carries is by assumption
  have hcomm' : (carried t p a hash packed block stats s).commSize.toUInt16 =
      (carried t p a hash packed block stats s').commSize.toUInt16 := by
    by_cases hend : a.commEnd = 0
    · simp only [carried, if_pos hend, hcomm hend]
    · simp only [carried, if_neg hend]
  have hlines' : Image.HasLines t →
      (carried t p a hash packed block stats s).packedSource = (carried t p a hash packed block stats s').packedSource ∧
      (carried t p a hash packed block stats s).checksumBlock =
        (carried t p a hash packed block stats s').checksumBlock := by
    intro hlines
    constructor
    · by_cases hnone : p.embedSource = none
      · simp only [carried, if_pos hnone, hpacked hlines hnone]
      · simp only [carried, if_neg hnone]
    · by_cases haddress : t.target.flashChecksumAddress = 0
      · simp only [carried, if_pos haddress, hblock hlines haddress]
      · simp only [carried, if_neg haddress]
  rw [hrun, hrun, Image.link_congr hcomm' hlines']

section Shows

variable {a : Assembled} {hash : String} {packed : Option Bytes} {block : Option Words} {stats : TableStats}
  {words : Words} {image : Image}

/-- The state that a build starts with shows in record lines, unless the build sets all that goes into them. -/
theorem sets_of_forall_link (hlines : Image.HasLines t)
    (hall : ∀ s, Image.link t p.name (carried t p a hash packed block stats s) words false false = .ok image) :
    p.embedSource ≠ none ∧ t.target.flashChecksumAddress ≠ 0 ∧ a.commEnd ≠ 0 := by
  obtain ⟨leading, back, hlink⟩ := Image.link_lines hlines (hall {})
  have hsame : ∀ s, Image.stateLines t words leading back (carried t p a hash packed block stats s) =
      Image.stateLines t words leading back (carried t p a hash packed block stats {}) := by
    intro s
    have heq := (hlink _).symm.trans ((hall s).trans ((hall {}).symm.trans (hlink _)))
    exact Image.records.inj (Except.ok.inj heq)
  -- one field that is not set tells a state with something in it from one without
  refine ⟨fun hnone => ?_, fun haddress => ?_, fun hend => ?_⟩
  · have hlength := congrArg List.length (hsame { packedSource := some [] })
    rw [Image.length_stateLines, Image.length_stateLines] at hlength
    simp [carried, hnone, Image.packedSourceRecords] at hlength
  · have hlength := congrArg List.length (hsame { checksumBlock := some [] })
    rw [Image.length_stateLines, Image.length_stateLines] at hlength
    simp [carried, haddress, Image.checksumRecords] at hlength
  · have hcomm := Image.commSize_of_stateLines (by rfl) (by rfl) (hsame { commSize := 1 })
    simp [carried, hend] at hcomm

end Shows

/-- **What is left by an earlier build.** Builds that start with the same in the fields that they do not set give the
same; and a build to record lines gives the same from all states exactly if it sets all of these fields. -/
theorem run_eq_of_same_leftovers (f : Assembler Id) (t : Template) (p : Program) :
    (∀ s s' : BuildState,
      (∀ source a, (prepare t p {}).1 = .ok source → f source t = .ok a → SameLeftovers t p a s s') →
      (run f t p s).1 = (run f t p s').1) ∧
    (Image.HasLines t → t.target.useUf2 = false → ∀ r, (run f t p {}).1 = .ok r →
      ((∀ s, (run f t p s).1 = .ok r) ↔ p.embedSource ≠ none ∧ t.target.flashChecksumAddress ≠ 0 ∧
        ∃ source a, (prepare t p {}).1 = .ok source ∧ f source t = .ok a ∧ a.commEnd ≠ 0)) := by
  refine ⟨fun s s' h => run_congr h, fun hlines huf2 r hfresh => ⟨fun hall => ?_, ?_⟩⟩
  · obtain ⟨e, hrun⟩ | ⟨source, a, words, hash, packed, block, stats, hprepare, hassemble, hrun⟩ := run_cases f t p
    · exact nomatch (hrun {}).symm.trans hfresh
    have hlink : ∀ s, Image.link t p.name (carried t p a hash packed block stats s) words false false =
        .ok r.image := by
      intro s
      have hs := (hrun s).symm.trans (hall s)
      rw [huf2] at hs
      cases hlink : Image.link t p.name (carried t p a hash packed block stats s) words false false with
      | error e =>
        rw [hlink] at hs
        exact nomatch hs
      | ok image =>
        rw [hlink] at hs
        rw [← Except.ok.inj hs]
        rfl
    obtain ⟨hembed, haddress, hend⟩ := sets_of_forall_link hlines hlink
    exact ⟨hembed, haddress, source, a, hprepare {}, hassemble, hend⟩
  · rintro ⟨hembed, haddress, source, a, hprepare, hassemble, hend⟩ s
    rw [← hfresh]
    refine run_congr fun source' a' hprepare' hassemble' => ?_
    obtain rfl : source = source' := Except.ok.inj (hprepare.symm.trans hprepare')
    obtain rfl : a = a' := Except.ok.inj (hassemble.symm.trans hassemble')
    exact ⟨fun h => absurd h hend, fun _ h => absurd h hembed, fun _ h => absurd h haddress⟩

/-- An assembler that gives one word, and a comm section of eight bytes where the template has a base for it. -/
def wordAssembler : Assembler Id := fun _ t =>
  .ok { words := [1], commEnd := if t.commBase = 0 then 0 else t.commBase + 8 }

theorem run_eq_of_same_leftovers_lines :
    ∃ (t : Template) (r : BuildResult),
      Template.parse (Template.pagedTarget 0x1011C) { Template.bareExtension Template.splitFile with commBase := 0 } =
        .ok t ∧
      (run wordAssembler t {} {}).1 = .ok r ∧
      (run wordAssembler t {} { commSize := 0x10000, sourceHash := "left" }).1 = .ok r ∧
      ∃ s, (run wordAssembler t {} s).1 ≠ .ok r := by
  have hread : (Template.parse (Template.pagedTarget 0x1011C)
      { Template.bareExtension Template.splitFile with commBase := 0 }).toOption.map (fun t =>
        (t.boot, t.isVm, t.blob, t.target.useUf2, (run wordAssembler t {} {}).1.isOk)) =
      some (none, false, none, false, true) := by decide +kernel
  obtain ⟨t, hparse, hfacts⟩ := exists_of_map_toOption hread
  simp only [Prod.mk.injEq] at hfacts
  obtain ⟨hboot, hvm, hblob, huf2, hok⟩ := hfacts
  obtain ⟨r, hfresh⟩ := exists_of_isOk hok
  obtain ⟨hsame, hall⟩ := run_eq_of_same_leftovers wordAssembler t {}
  refine ⟨t, r, hparse, hfresh, ?_, ?_⟩
  · rw [← hfresh]
    exact hsame _ _ fun source a _ _ => ⟨fun _ => by decide, fun _ _ => rfl, fun _ _ => rfl⟩
  · have hnot : ¬ ∀ s, (run wordAssembler t {} s).1 = .ok r :=
      fun h => ((hall ⟨hboot, hvm, hblob⟩ huf2 r hfresh).1 h).1 rfl
    exact Classical.not_forall.1 hnot

/-- A template for bytecode with a base for a comm section. -/
def baseTemplate (commBase : UInt32) : Template :=
  Template.ofVm { Template.pagedTarget 0 with nativeType := "vm" } { Template.bareExtension [] with commBase }

/-- The second of two builds has the size of the first one's comm section in its program. -/
theorem run_after_other_target :
    let left := (run wordAssembler (baseTemplate 0x20000000) {} {}).2
    ((run wordAssembler (baseTemplate 0) {} left).1.toOption.map fun r => r.image.bytes.drop 34) =
        some [1, 0, 0, 0, 0, 0, 8, 0] ∧
      ((run wordAssembler (baseTemplate 0) {} {}).1.toOption.map fun r => r.image.bytes.drop 34) =
        some [1, 0, 0, 0, 0, 0, 0, 0] := by
  decide +kernel

end Build

end Firmware
