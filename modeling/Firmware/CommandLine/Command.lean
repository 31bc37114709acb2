import Firmware.Build.Session
import Firmware.CommandLine.Options
import Firmware.CommandLine.Store

/-!
# Commands

Describing the templates of a configuration and linking a program into them.
-/

namespace Firmware
namespace CommandLine

/-! ## Inspecting templates -/

def describe (t : Template) : String :=
  let functions := t.functions.sorted
  "  sha:         " ++ t.hashText ++ "\n" ++
  "  format:      " ++ t.format ++ "\n" ++
  "  jump table:  0x" ++ Numeral.hex t.jumpTable.toNat ++ "\n" ++
  "  code start:  0x" ++ Numeral.hex t.codeStart.toNat ++ " (padded 0x" ++
    Numeral.hex t.codeStartPadded.toNat ++ ")\n" ++
  "  comm base:   0x" ++ Numeral.hex t.commBase.toNat ++ "\n" ++
  "  output:      " ++ t.target.outputName ++ "\n" ++
  "  functions:   " ++ Numeral.decimal functions.length ++ "\n" ++
  String.join (functions.map fun (name, f) =>
    "    0x" ++ Numeral.hex8 f.value ++ " " ++ name ++ "(" ++
      String.intercalate ", " f.argsFormat ++ ")\n")

/-- The template of an extension, through the cache and the opened store. -/
def setup (t : Target) (e : Extension) (cache : TemplateCache) :
    Command (Except Failure Template × TemplateCache) := do
  let w ← get
  match w.store with
  | none =>
    let (found, cache, _) := cache.setup (none : Option (StoreAccess Unit)) t e ()
    return (found.map (·.template), cache)
  | some s =>
    let (found, cache, database) := cache.setup (some s.access) t e s.database
    set { w with store := some { s with database } }
    return (found.map (·.template), cache)

def inspectAll (t : Target) : List (String × Extension) → TemplateCache → Command Unit
  | [], _ => pure ()
  | (name, e) :: rest, cache => do
    let name := if name.isEmpty then "(main)" else name
    print (name ++ ": template " ++ e.template ++ "\n")
    if !e.disabledBy.isEmpty then
      print ("  disabled by: " ++ e.disabledBy ++ "\n")
      inspectAll t rest cache
    else
      let (found, cache) ← setup t e cache
      match found with
      | .error f => throw (.inVariant name f)
      | .ok template =>
        print (describe template)
        inspectAll t rest cache

def inspect (c : Configuration) : Command Unit := inspectAll c.target c.builds {}

/-! ## Linking a program -/

def imageFile (r : BuildResult) : String :=
  if r.variant.isEmpty then r.imageName else r.variant ++ "/" ++ r.imageName

/-- The variants to build; all of them when `only` is empty. -/
def selectVariants (c : Configuration) (program only : String) : List Variant :=
  let code : Program := { name := program, config := c.entries }
  let builds := c.builds.filter fun (name, _) => only.isEmpty || name == only
  builds.map fun (name, extension) => { name, target := c.target, extension, program := code }

/-- Builds variants of a program that is machine code, with files below a directory. -/
def buildAll (words : Words) (directory : String) (variants : List Variant) :
    Command (Session Database FileTree) := do
  let w ← get
  let shop : Workshop Id Database FileTree :=
    { assembler := Assembler.ofWords words
      store := w.store.map (·.access)
      output := some (FileTree.outputAccess directory) }
  let database := (w.store.map (·.database)).getD {}
  match Session.emit shop variants { store := database, output := w.files } with
  | .error f => throw f
  | .ok s =>
    let store := w.store.map fun o => { o with database := s.store }
    set { w with files := s.output, store }
    return s

/-- Links the program in a file into the templates of a configuration. -/
def link (c : Configuration) (path directory only : String) : Command Unit := do
  let content : Bytes ← match (← get).files.read path with
    | .ok content => pure content
    | .error f => throw (.readingProgram f)
  let variants := selectVariants c (Path.stem path) only
  if variants.isEmpty then throw (.noSuchVariant only)
  else
    let s ← buildAll (Words.ofBytes content) directory variants
    for r in s.results do
      print (Path.join [directory, imageFile r] ++ "\n")
    for d in s.diagnostics do
      warn (d.render ++ "\n")
    if s.results.length < variants.length then
      throw (.variantsFailed (variants.length - s.results.length) variants.length)

end CommandLine
end Firmware
