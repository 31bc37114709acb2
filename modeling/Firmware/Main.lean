import Firmware.CommandLine.Run

/-!
# The command

Reads the environment and the files that the arguments name, runs the command, writes the files it
made, and prints. The command has no configuration of its own: one is given by a program that
embeds the library.
-/

namespace Firmware

/-- The contents of a file, if it can be read. -/
def readFile? (path : String) : IO (Option Bytes) := do
  try
    let content ← IO.FS.readBinFile path
    return some content.toList
  catch _ => return none

def addFile (files : FileTree) (path : String) (content : Bytes) : FileTree :=
  match files.makeDirectories (Path.parent path) with
  | .error _ => files
  | .ok files => (files.write path content).toOption.getD files

def loadFiles (arguments : List String) : IO FileTree := do
  let directory := (← IO.currentDir).toString
  let mut files : FileTree :=
    { workingDirectory := (Path.components directory).filter (!·.isEmpty) }
  for path in arguments do
    match ← readFile? path with
    | some content => files := addFile files (Path.clean path) content
    | none => pure ()
  return files

/-- Writes the files that are not the same in `before`. A database is not written. -/
def storeFiles (before files : FileTree) : IO Unit := do
  for (place, node) in files.nodes do
    if before.find? place != some node then
      match node with
      | .file content =>
        let path := "/" ++ String.intercalate "/" place
        IO.FS.createDirAll (Path.parent path)
        IO.FS.writeBinFile path ⟨content.toArray⟩
      | _ => pure ()

/-- The value of an environment variable; empty when it is not set. -/
def readVariable (name : String) : IO String := return (← IO.getEnv name).getD ""

end Firmware

open Firmware in
def main (arguments : List String) : IO UInt32 := do
  let environment : CommandLine.Environment :=
    { storePath := ← readVariable "FLASHLINK_CACHE_DB"
      cacheHome := ← readVariable "XDG_CACHE_HOME"
      home := ← readVariable "HOME" }
  let files ← loadFiles arguments
  match CommandLine.run environment none files arguments with
  | .error f =>
    IO.eprintln f.message
    return 2
  | .ok r =>
    storeFiles files r.world.files
    IO.print r.world.output
    IO.eprint r.world.errors
    return r.exitCode.toUInt32
