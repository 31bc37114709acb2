import Firmware.BootImage.Layout
import Firmware.Image.Basic
import Firmware.Image.ObjectHeader
import Firmware.Program.Basic
import Firmware.Template.Parse

/-!
# Linking

Linking places the words of an assembled program into a template. The runtime finds the program
through a header that is written over the marker of the jump table: the program's address and the
hash of the template. The program itself carries its size and the size of the comm section in slots
that the assembler left empty.

Where the program goes depends on the container: behind the code start in record lines and block
files, behind the template in a blob, behind the read-only data in a boot image. For a virtual
machine the program is the image.
-/

namespace Firmware
namespace Image

/-! ## The program -/

/-- The first word of the program's header. -/
def headerVersion : UInt16 := 0x4210

/-- A program has to be smaller than this, in units of eight bytes. -/
def sizeLimit : Nat := 64000

/-- The slot for the size of the program, in words from its start. -/
def sizeSlot : Nat := 17

def commSlot : Nat := 20

def sizeEntry (words : Words) : Nat := (words.length * 2 + 7) / 8

/-- The program with its slots filled, behind the padding of the template. A program that ends
before its slots is completed with zeros. -/
def payload (t : Template) (commSize : UInt32) (words : Words) : Words :=
  let full := words ++ List.replicate (commSlot + 1 - words.length) 0
  List.replicate (t.codePadding.toNat / 2) 0 ++
    (full.set sizeSlot (sizeEntry words).toUInt16).set commSlot commSize.toUInt16

/-- The four words of the template's hash, in the byte order of the program. -/
def hashWords (t : Template) : Except Failure Words :=
  let text := Utf8.encode t.hashText
  [0, 1, 2, 3].mapM fun i =>
    let digits : Bytes := (text.drop (i * 4)).take 4
    if digits.length < 4 then .error .outOfRange
    else
      let digits := IntelHex.swapPairs digits
      match Numeral.read (.fixed 16) 16 digits with
      | .ok n => .ok n.toUInt16
      | .error f => .error (.badTemplateHash t.hashText digits f)

def programHeader (t : Template) : Except Failure Bytes := do
  let hash ← hashWords t
  let start := t.codeStartPadded
  return Words.toBytes ([headerVersion, 0, start.toUInt16, (start >>> 16).toUInt16] ++ hash)

/-- The rows of 16 bytes that the words make up, the last one completed with zeros, each with its
address. -/
def programRows (address : UInt32) (words : Words) : List (UInt32 × Bytes) :=
  (Bytes.rows 16 words.toBytes).mapIdx fun i row =>
    (address + (16 * i).toUInt32, Bytes.resize row 16 0)

/-! ## Record lines -/

/-- The record lines of rows, with a line that sets the upper address half wherever it changes from
`upper`. -/
def rowRecordsOnto (upper : UInt32) (acc : List String) : List (UInt32 × Bytes) → List String
  | [] => acc.reverse
  | (address, data) :: rest =>
    let record := IntelHex.renderRecord IntelHex.dataType address.toUInt16 data
    if address >>> 16 == upper then rowRecordsOnto upper (record :: acc) rest
    else
      rowRecordsOnto (address >>> 16) (record :: IntelHex.linearRecord (address >>> 16) :: acc) rest

/-- The record lines of a program at an address. What stands in front of it is taken to have set
the upper half of the address before. -/
def programRecords (address : UInt32) (words : Words) : List String :=
  rowRecordsOnto ((address - 16) >>> 16) [] (programRows address words)

def checksumRecords (address : UInt32) (block : Words) : List String :=
  IntelHex.linearRecord (address >>> 16) ::
    (Bytes.rows 16 block.toBytes).mapIdx fun i row =>
      IntelHex.renderRecord IntelHex.dataType (address + (16 * i).toUInt32).toUInt16 row

/-- The upper address half of packed source, far outside of flash. -/
def packedSourceUpper : UInt32 := 0x2000

def packedSourceRecords (source : Bytes) : List String :=
  IntelHex.linearRecord packedSourceUpper ::
    (Bytes.rows 16 source).mapIdx fun i row =>
      IntelHex.renderRecord IntelHex.packedSourceType (16 * i).toUInt16 (Bytes.resize row 16 0)

/-- Inserts lines in front of the first one that ends the file, or behind all lines. -/
def insertBeforeEnd (records lines : List String) : List String :=
  lines.takeWhile (!IntelHex.isEnd ·) ++ records ++ lines.dropWhile (!IntelHex.isEnd ·)

/-- Moves the first line that ends the file behind all others. -/
def moveEnd (lines : List String) : List String :=
  match lines.dropWhile (!IntelHex.isEnd ·) with
  | [] => lines
  | line :: rest => lines.takeWhile (!IntelHex.isEnd ·) ++ rest ++ [line]

/-- The lines in front of the program, with the header in place. -/
def leadingRecords (t : Template) (header : Bytes) (row : Nat) (lines : List String) :
    Except Failure (List String) := do
  let lines ← ObjectHeader.replaceInLines t lines
  if row < lines.length then
    return lines.set row
      (IntelHex.renderRecord IntelHex.dataType t.jumpTable.toUInt16 header)
  else throw .outOfRange

/-- Links into record lines. The short form leaves the lines of the template out. -/
def linkRecords (t : Template) (s : BuildState) (header : Bytes) (words : Words) (short : Bool)
    (start row : Nat) : Except Failure Image := do
  let leading ← leadingRecords t header row (t.lines.take start)
  let program := programRecords t.codeStart words
  let lines := if short then program else leading ++ program ++ t.lines.drop start
  let lines := match s.checksumBlock with
    | some block =>
      insertBeforeEnd (checksumRecords t.target.flashChecksumAddress block) lines
    | none => lines
  let lines := lines ++ (s.packedSource.map packedSourceRecords).getD []
  return .records (if t.target.moveHexEnd then moveEnd lines else lines)

/-! ## Block files -/

def writeRecords (f : Uf2.BlockFile) (lines : List String) : Except Failure Uf2.BlockFile :=
  match f.writeHex lines with
  | (f, none) => .ok f
  | (_, some e) => .error e

/-- Adds packed source in pages that are not flashed, behind the page written last. -/
def addPackedSource (f : Uf2.BlockFile) (source : Bytes) : Uf2.BlockFile :=
  let start := ((f.lastAddress.getD 0) + 0x1000).toUInt32 &&& 0xffffff00
  ((Bytes.rows Uf2.payloadSize source).mapIdx fun i row =>
      (start + (Uf2.payloadSize * i).toUInt32, Bytes.resize row Uf2.payloadSize 0)).foldl
    (fun f (address, data) => f.write address data Uf2.flagNoFlash) f

/-- Links record lines into a block file. The short form leaves out what follows the program. -/
def linkBlocks (t : Template) (s : BuildState) (header : Bytes) (words : Words) (short : Bool)
    (start : Nat) : Except Failure Image := do
  let f ← writeRecords (.new t.target.family) (t.lines.take start)
  let f ← ObjectHeader.replaceInPages t f
  let f := f.write t.jumpTable header 0
  let f := match s.checksumBlock with
    | some block => f.write t.target.flashChecksumAddress block.toBytes 0
    | none => f
  let f := (programRows t.codeStart words).foldl
    (fun f (address, data) => f.write address data 0) f
  let f ← if short then pure f else writeRecords f (t.lines.drop start)
  let f := match s.packedSource with
    | some source => addPackedSource f source
    | none => f
  return .binary f.serialize

/-! ## Blobs -/

def isNameChar (c : Char) : Bool := c.isAlphanum || c == '-' || c == '.'

/-- Replaces every run of characters that may not stand in a name by one underscore. -/
def safeChars (inRun : Bool) : List Char → List Char
  | [] => []
  | c :: rest =>
    if isNameChar c then c :: safeChars false rest
    else if inRun then safeChars true rest
    else '_' :: safeChars true rest

def executableName (name : String) : String :=
  let name := if name.isEmpty then "pxt" else name
  "Projects/" ++ String.ofList (safeChars false name.toList) ++ ".elf"

/-- Links into a blob, which may be wrapped in a block file. -/
def linkBlob (t : Template) (name : String) (header : Bytes) (words : Words) (uf2 : Bool)
    (blob : Blob) : Except Failure Image := do
  let image : Bytes ← blob.patch words.toBytes
  if image.length < t.jumpTable.toNat + header.length then throw .jumpTableOutside
  else
    let image ← ObjectHeader.replaceIn t (image.overwrite t.jumpTable.toNat header)
    if uf2 then
      let f : Uf2.BlockFile :=
        { Uf2.BlockFile.new t.target.family with fileName := Utf8.encode (executableName name) }
      return .binary (f.write 0 image 0).serialize
    else return .binary image

/-! ## Boot images -/

/-- Puts a program behind read-only data: the marker at `offset` is replaced by the program's
address, and the data is completed with zeros to the code start and to whole words. -/
def extendReadOnly (t : Template) (offset : Nat) (program : Bytes) (s : BootImage.Segment) :
    BootImage.Segment :=
  let marker := Bytes.resize (Bytes.ofWord32 t.codeStart) Template.bootMarker.length 0
  let gap := (t.codeStart - s.stop).toNat
  let data : Bytes := s.data.overwrite offset marker ++ List.replicate gap 0 ++ program
  { s with data := data.resize ((data.length + 3) / 4 * 4) 0 }

def linkBoot (t : Template) (words : Words) (boot : BootImage) : Except Failure Image := do
  let program ← ObjectHeader.replaceIn t words.toBytes
  match boot.readOnly? with
  | some segment =>
    let offset := t.markerOffset.toNat
    let size : Nat := segment.data.length
    if t.markerOffset < 0 || size < wrap64 (t.markerOffset + Template.bootMarker.length) then
      throw .bootImageWithoutTable
    else if size < offset + Template.bootMarker.length then throw .outOfRange
    else if t.codeStart < segment.stop then throw (.codeStartInsideData t.codeStart)
    else
      let segments := BootImage.updateReadOnly (extendReadOnly t offset program) boot.segments
      let digest := (boot.header[BootImage.digestFlagOffset]?).any (· != 0)
      return .binary (← BootImage.serialize { boot with segments } digest)
  | none => throw .bootImageWithoutTable

/-! ## All containers -/

/-- Links the words of an assembled program into a template. The short form asks for the lines of
the program only; `uf2` asks for a block file where record lines or a blob would result. -/
def link (t : Template) (name : String) (s : BuildState) (words : Words) (short uf2 : Bool) :
    Except Failure Image := do
  if sizeLimit ≤ sizeEntry words then throw (.programTooLarge (words.length * 2))
  else
    let payload := payload t s.commSize words
    let header ← programHeader t
    match t.boot, t.isVm, t.blob with
    | some boot, _, _ => linkBoot t payload boot
    | none, true, _ => return .binary (← ObjectHeader.replaceIn t payload.toBytes)
    | none, false, some blob => linkBlob t name header payload uf2 blob
    | none, false, none =>
      let start := t.codeStartLine.toNat
      if t.codeStartLine < 0 || t.lines.length < start || t.jumpTableLine < 0 then
        throw .noCodeStart
      else if uf2 then linkBlocks t s header payload short start
      else linkRecords t s header payload short start t.jumpTableLine.toNat

end Image
end Firmware
