import Firmware.Build.Assembler
import Firmware.Image.Link
import Firmware.Program.Assembly
import Firmware.Program.Checksum
import Firmware.Program.Listing
import Firmware.Program.Source

/-!
# Builds

A build turns a program and a template into an image and the files that go with it. It has three
parts: the source of the program is prepared, an assembler makes words of it, and the words are
linked into the template. The state of the build is handed on from part to part, and what it holds
at the end is kept also when the build fails.
-/

namespace Firmware

/-- Output files by name, in the order in which they were made. -/
abbrev OutputFiles := List (String × Bytes)

namespace OutputFiles

def put (files : OutputFiles) (name : String) (content : Bytes) : OutputFiles :=
  if files.any (·.1 == name) then
    files.map fun e => if e.1 == name then (name, content) else e
  else files ++ [(name, content)]

def sorted (files : OutputFiles) : OutputFiles := files.mergeSort fun a b => a.1 ≤ b.1

end OutputFiles

/-- A breakpoint that was found in the machine code. -/
structure PlacedBreakpoint where
  id : Int
  address : UInt32
deriving DecidableEq, Repr

structure BuildResult where
  variant : String := ""
  imageName : String
  image : Image
  files : OutputFiles
  breakpoints : List PlacedBreakpoint := []
deriving DecidableEq, Repr

namespace Build

def listingFile : String := "binary.asm"

def configFile : String := "config.c"

def sizeFile : String := "size.csv"

/-- The source packed for keeping, and the assembly that keeps it in the program. Packed source
that is too large for flash, or that the target keeps out of it, goes into the state instead. -/
def embedSource (t : Target) (p : Program) (s : BuildState) : String × BuildState :=
  match p.embedSource with
  | none => ("", s)
  | some blob =>
    let packed := Source.pack p.embedMeta blob
    if !t.noSourceInFlash && packed.length < Source.largestInFlash then
      (Source.packedAssembly packed, { s with packedSource := none })
    else ("", { s with packedSource := some packed })

/-- The source that the assembler gets. -/
def prepare (t : Template) (p : Program) (s : BuildState) : Except Failure Bytes × BuildState :=
  let (text, stats) := p.assembly t
  let s := { s with tableStats := stats }
  match text with
  | .error f => (.error f, s)
  | .ok text =>
    let (text, hash) := Source.withHash text
    let (packed, s) := embedSource t.target p { s with sourceHash := hash }
    let source := Utf8.encode (text ++ packed)
    if t.target.flashChecksumAddress == 0 then (.ok source, s)
    else ((Checksum.stub t s.sourceHash).map (source ++ ·), s)

def breakpointLabel (b : Breakpoint) : String := "__brkp_" ++ Numeral.decimal b.id

def placeBreakpoints (breakpoints : List Breakpoint) (labels : List (String × UInt32)) :
    List PlacedBreakpoint :=
  breakpoints.filterMap fun b =>
    (labels.lookup (breakpointLabel b)).map fun address => ⟨b.id, address⟩

/-- The words that are linked: without the checksum block if there is one, which goes into the
state. -/
def cutChecksum (t : Template) (a : Assembled) (s : BuildState) :
    Except Failure Words × BuildState :=
  if t.target.flashChecksumAddress == 0 then (.ok a.words, s)
  else
    match Checksum.extract t a.words a.labels with
    | .error f => (.error f, s)
    | .ok (words, block) => (.ok words, { s with checksumBlock := some block })

def outputFiles (t : Template) (p : Program) (s : BuildState) (source : Bytes) (a : Assembled)
    (image : Image) : OutputFiles :=
  let listing := if a.listing.isEmpty then source else Utf8.encode a.listing
  let files : OutputFiles :=
    [(listingFile, Utf8.encode (Listing.header p s.tableStats) ++ listing)]
  let files := match Listing.bootloaderConfig p.config with
    | some text => files.put configFile (Utf8.encode text)
    | none => files
  let files := files.put t.target.outputName image.bytes
  if t.target.sizeReport then
    files.put sizeFile (Utf8.encode (Listing.sizeReport p.procedures a.labels a.words.length))
  else files

def finish (t : Template) (p : Program) (source : Bytes) (a : Assembled) (s : BuildState) :
    Except Failure BuildResult × BuildState :=
  let s := if a.commEnd == 0 then s else { s with commSize := a.commEnd - t.commBase }
  match cutChecksum t a s with
  | (.error f, s) => (.error f, s)
  | (.ok words, s) =>
    match Image.link t p.name s words false t.target.useUf2 with
    | .error f => (.error f, s)
    | .ok image =>
      (.ok {
        imageName := t.target.outputName
        image
        files := outputFiles t p s source a image
        breakpoints := placeBreakpoints p.breakpoints a.labels }, s)

def run {m : Type → Type} [Monad m] (assembler : Assembler m) (t : Template) (p : Program)
    (s : BuildState) : m (Except Failure BuildResult × BuildState) := do
  match prepare t p s with
  | (.error f, s) => return (.error f, s)
  | (.ok source, s) =>
    match ← assembler source t with
    | .error f => return (.error (.assembling f), s)
    | .ok a => return finish t p source a s

end Build
end Firmware
