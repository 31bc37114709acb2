import Firmware.Files.Tree

/-!
# The world of commands

The commands work on a world: the files, an opened store of templates, and what has been printed.
A command that fails keeps what it did until then.
-/

namespace Firmware
namespace CommandLine

/-- The loaded configuration of a project. -/
structure Configuration where
  target : Target
  /-- The template of the main build. -/
  extension : Extension
  /-- The templates of the variants by name. -/
  variants : List (String × Extension) := []
  entries : List ConfigEntry := []
deriving DecidableEq, Repr

/-- The main build followed by the variants. -/
def Configuration.builds (c : Configuration) : List (String × Extension) :=
  ("", c.extension) :: c.variants

/-- What the environment says about the place of the store. -/
structure Environment where
  storePath : String := ""
  /-- The directory for cached files. -/
  cacheHome : String := ""
  home : String := ""
deriving DecidableEq, Repr

/-- What goes wrong in a store whose table was not made here. -/
structure StoreFaults where
  /-- The entries cannot be listed. -/
  list : Option DatabaseFault := none
  isMissingHash : Bool := false
  /-- No entry can be loaded. -/
  load : Option DatabaseFault := none
  /-- No entry can be deleted. -/
  delete : Option DatabaseFault := none
deriving DecidableEq, Repr

structure OpenStore where
  /-- Where the database is kept; none when it is not. -/
  place : Option FileTree.Place
  database : Database
  isWritable : Bool := true
  saved : List (String × Option Template) := database.entries
  /-- The files that a change leaves beside the database, by what is added to its name. -/
  leftover : List (String × Bytes) := []
  faults : StoreFaults := {}
deriving DecidableEq, Repr

/-- What a cache may do with an opened store. -/
def OpenStore.access (s : OpenStore) : StoreAccess Database :=
  if s.isWritable then Database.access else Database.readAccess

/-- What commands work on. -/
structure World where
  files : FileTree
  store : Option OpenStore := none
  output : String := ""
  errors : String := ""
deriving DecidableEq, Repr

abbrev Command := ExceptT Failure (StateM World)

def print (text : String) : Command Unit :=
  modify fun w => { w with output := w.output ++ text }

def warn (text : String) : Command Unit :=
  modify fun w => { w with errors := w.errors ++ text }

end CommandLine
end Firmware
