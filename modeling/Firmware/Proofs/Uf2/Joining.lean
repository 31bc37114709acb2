import Firmware.Proofs.Uf2.Gaps
import Firmware.Proofs.Uf2.LineWrites

/-!
# Joining block files

The pages of files that are joined become those of one file, with the size of the file fixed in those that hold part of
one (`concat_eq`). So the blocks of the joined file are those of the files, in order, with new numbers. The files are left
empty and without a name, and nothing is left of them that shows in later blocks (`parse_serialize_concat`).
-/

open List hiding concat

namespace Firmware

open Uf2 BlockFile

namespace Uf2

/-- A file by what is written to it. -/
structure Draft where
  family : UInt32
  fileName : Bytes
  writes : List FlaggedWrite

/-- The file that is written. -/
def Draft.file (d : Draft) : BlockFile := (named d.family d.fileName).writeFlagged d.writes

/-- Its pages when it is serialized. -/
def Draft.pages (d : Draft) : List Page := d.file.finalPages

/-- Blocks with their place and their number in a row. -/
def renumber (blocks : List Block) : List Block :=
  blocks.mapIdx fun i b => { b with number := i.toUInt32, total := blocks.length.toUInt32 }

/-- Later writes to files that were joined, each to the file at a place. -/
def writeInputs (s : BlockFile × List BlockFile) (ws : List (Nat × FlaggedWrite)) : BlockFile × List BlockFile :=
  ws.foldl (fun s (i, w) => (s.1, s.2.modify i fun g => g.write w.address w.data w.flags)) s

/-- The writes to the file at a place. -/
def writesTo (ws : List (Nat × FlaggedWrite)) (i : Nat) : List FlaggedWrite :=
  ws.filterMap fun (k, w) => if k = i then some w else none

namespace BlockFile

variable {f g : BlockFile}

theorem Sound.writeFlagged (h : f.Sound) (ws : List FlaggedWrite) : (f.writeFlagged ws).Sound := by
  induction ws generalizing f with
  | nil => exact h
  | cons w rest ih => exact ih (h.write w.toWrite w.flags)

theorem family_writeFlagged (f : BlockFile) (ws : List FlaggedWrite) : (f.writeFlagged ws).family = f.family := by
  rw [writeFlagged_eq]
  generalize flaggedPieces ws = cs
  induction cs generalizing f with
  | nil => rfl
  | cons c rest ih => exact ih (f.writePage c.address c.data c.flags)

/-- A file whose pages were moved to another one. -/
def emptied (g : BlockFile) : BlockFile := { g with fileName := [], pages := [], last := none }

/-- The joined file has the pages of all. -/
theorem concat_eq (fs : List BlockFile) : concat fs = ({ pages := fs.flatMap finalPages }, fs.map emptied) := by
  have hfold : ∀ (r : BlockFile) (done : List BlockFile),
      fs.foldl (fun s g => ((s.1.absorb g).1, s.2 ++ [(s.1.absorb g).2])) (r, done) =
        ({ r with pages := r.pages ++ fs.flatMap finalPages }, done ++ fs.map emptied) := by
    induction fs with
    | nil => intro r done; simp
    | cons g rest ih =>
      intro r done
      rw [foldl_cons, ih]
      simp [absorb, emptied]
  exact hfold (new 0) []

/-- What is written to a file does not depend on its size so far. -/
theorem pages_writePages_congr (hpages : f.pages = g.pages) (hname : f.fileName = g.fileName) (hfamily : f.family = g.family)
    (cs : List FlaggedWrite) :
    (f.writePages cs).pages = (g.writePages cs).pages ∧ (f.writePages cs).fileName = (g.writePages cs).fileName := by
  induction cs generalizing f g with
  | nil => exact ⟨hpages, hname⟩
  | cons c rest ih =>
    refine ih ?_ hname hfamily
    cases f
    cases g
    cases hpages
    cases hname
    cases hfamily
    rfl

theorem serialize_writeFlagged_emptied (g : BlockFile) (ws : List FlaggedWrite) :
    (g.emptied.writeFlagged ws).pages = ((new g.family).writeFlagged ws).pages ∧
      (g.emptied.writeFlagged ws).serialize = ((new g.family).writeFlagged ws).serialize := by
  rw [writeFlagged_eq, writeFlagged_eq]
  obtain ⟨hpages, hname⟩ := pages_writePages_congr (f := g.emptied) (g := new g.family) rfl rfl rfl (flaggedPieces ws)
  have hempty := (lists_new g.family).writePages (flaggedPieces ws)
  refine ⟨hpages, ?_⟩
  unfold serialize finalPages
  rw [hname, hpages, hempty.fileName]
  rfl

end BlockFile

theorem Draft.sound (d : Draft) : d.file.Sound := (records_named d.family d.fileName).sound.writeFlagged d.writes

/-- The blocks of files, with new numbers, are those of their pages in a row. -/
theorem renumber_flatMap_parse (ds : List Draft) : renumber (ds.flatMap fun d => parse d.file.serialize) =
      (ds.flatMap Draft.pages).mapIdx (blockOf (ds.flatMap Draft.pages).length) := by
  let bare (b : Block) : Block := { b with number := 0, total := 0 }
  have hbare : (ds.flatMap fun d => parse d.file.serialize).map bare = (ds.flatMap Draft.pages).map (blockOf 0 0) := by
    rw [map_flatMap, map_flatMap]
    refine flatMap_congr fun d _ => ext_getElem? fun i => ?_
    rw [parse_serialize d.sound, getElem?_map, getElem?_mapIdx, Option.map_map, getElem?_map]
    rfl
  have hlength := congrArg List.length hbare
  rw [length_map, length_map] at hlength
  refine ext_getElem? fun i => ?_
  have hi := congrArg (fun blocks : List Block => (blocks[i]?).map fun b =>
    { b with number := i.toUInt32, total := (ds.flatMap Draft.pages).length.toUInt32 }) hbare
  simp only [getElem?_map, Option.map_map] at hi
  rw [renumber, getElem?_mapIdx, getElem?_mapIdx, hlength]
  exact hi

/-- A later write to one of the files leaves the joined file and the other ones alone. -/
theorem writeInputs_spec (s : BlockFile × List BlockFile) (ws : List (Nat × FlaggedWrite)) :
    (writeInputs s ws).1 = s.1 ∧
      ∀ i : Nat, (writeInputs s ws).2[i]? = (s.2[i]?).map fun g : BlockFile => g.writeFlagged (writesTo ws i) := by
  induction ws generalizing s with
  | nil => exact ⟨rfl, fun i => by simp [writeInputs, writesTo, writeFlagged]⟩
  | cons op rest ih =>
    obtain ⟨k, w⟩ := op
    obtain ⟨hfirst, hall⟩ := ih (s.1, s.2.modify k fun g => g.write w.address w.data w.flags)
    refine ⟨hfirst, fun i => (hall i).trans ?_⟩
    rw [getElem?_modify]
    by_cases hk : k = i <;> cases s.2[i]? <;> simp [writesTo, writeFlagged, hk]

/-- **Joining.** The blocks of the joined file are those of the files, in order, with new numbers. The files are empty
then, and later writes to them leave the joined file alone and make the blocks that they make in a new file. -/
theorem parse_serialize_concat (ds : List Draft) (ws : List (Nat × FlaggedWrite)) :
    (∀ g ∈ (concat (ds.map Draft.file)).2, g.pages = [] ∧ g.last = none) ∧
    parse (writeInputs (concat (ds.map Draft.file)) ws).1.serialize =
      renumber (ds.flatMap fun d => parse d.file.serialize) ∧
    ∀ (i : Nat) (d : Draft), ds[i]? = some d → ∃ g, (writeInputs (concat (ds.map Draft.file)) ws).2[i]? = some g ∧
      g.pages = ((new d.family).writeFlagged (writesTo ws i)).pages ∧
      g.serialize = ((new d.family).writeFlagged (writesTo ws i)).serialize := by
  obtain ⟨hfirst, hall⟩ := writeInputs_spec (concat (ds.map Draft.file)) ws
  refine ⟨?_, ?_, fun i d hd => ?_⟩
  · intro g hg
    rw [concat_eq] at hg
    obtain ⟨f, -, rfl⟩ := List.mem_map.1 hg
    exact ⟨rfl, rfl⟩
  · have hsize : ∀ p ∈ ds.flatMap Draft.pages, p.data.length = payloadSize := by
      intro p hp
      obtain ⟨d, -, hp⟩ := List.mem_flatMap.1 hp
      exact d.sound.size_finalPages hp
    rw [hfirst, concat_eq, renumber_flatMap_parse, List.flatMap_map]
    exact parse_serialize_of_size (f := { pages := ds.flatMap Draft.pages }) hsize
  · rw [hall, concat_eq, List.getElem?_map, List.getElem?_map, hd]
    have hlater := serialize_writeFlagged_emptied d.file (writesTo ws i)
    rw [Draft.file, family_writeFlagged] at hlater
    exact ⟨_, rfl, hlater⟩

end Uf2
end Firmware
