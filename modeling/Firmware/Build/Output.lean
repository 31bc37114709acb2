import Firmware.Build.Basic
import Firmware.Files.Tree

/-!
# Outputs

Where the files of a session go. An output is a state and a way to write a file into it; a file
that cannot be written is a failure of the build it belongs to.
-/

namespace Firmware

/-- What a session asks of an output with states `ω`. -/
structure OutputAccess (ω : Type) where
  write : String → Bytes → ω → Except Failure Unit × ω

/-! ## In memory -/

/-- Files in memory. The file of one name may be refused. -/
structure MemoryOutput where
  files : OutputFiles := []
  refused : Option String := none
deriving DecidableEq, Repr

def MemoryOutput.access : OutputAccess MemoryOutput where
  write name content s :=
    if s.refused == some name then (.error .diskFull, s)
    else (.ok (), { s with files := s.files.put name content })

/-! ## In a directory -/

/-- Writes a file below a directory of a file tree, making directories as needed. -/
def FileTree.writeBelow (directory name : String) (content : Bytes) (t : FileTree) :
    Except Failure Unit × FileTree :=
  let path := Path.join [directory, name]
  match t.makeDirectories (Path.parent path) with
  | .error f => (.error (.creatingOutputDirectory f), t)
  | .ok t =>
    match t.write path content with
    | .error f => (.error (.writingOutput path f), t)
    | .ok t => (.ok (), t)

def FileTree.outputAccess (directory : String) : OutputAccess FileTree where
  write name content t := t.writeBelow directory name content

end Firmware
