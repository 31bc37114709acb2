import Firmware.Compression.Deflate.Stream
import Firmware.Compression.Zstandard.Frame
import Firmware.Failure

/-!
# Executable headers

The parts of an executable file that decide whether it can be read at all: the identification, the
file header, the tables of program and section headers, and the names of the sections, which may be
compressed. Files of both widths are read; only the 32-bit ones can be used as templates.
-/

namespace Firmware
namespace Executable

/-- The width of addresses and offsets in a file. -/
inductive Width where
  | narrow
  | wide
deriving DecidableEq, Repr

/-- The bytes that open an executable file. -/
def magic : Bytes := [0x7F, 0x45, 0x4C, 0x46]

/-- Where a field stands in its record, and its size. -/
structure Field where
  offset : Nat
  size : Nat
deriving DecidableEq, Repr

/-- The places of the fields that matter, for one width. -/
structure Layout where
  headerSize : Nat
  version : Field
  programOffset : Field
  sectionOffset : Field
  programEntrySize : Field
  programCount : Field
  sectionEntrySize : Field
  sectionCount : Field
  namesIndex : Field
  programSize : Nat
  programType : Field
  programFileOffset : Field
  programFileSize : Field
  programAddress : Field
  programMemorySize : Field
  sectionSize : Nat
  sectionName : Field
  sectionType : Field
  sectionFlags : Field
  sectionFileOffset : Field
  sectionFileSize : Field
  sectionLink : Field
  sectionInfo : Field
  compressionHeader : Nat
  compressionType : Field
  compressionSize : Field

/-- The layout of 32-bit files. -/
def narrowLayout : Layout where
  headerSize := 52
  version := ⟨20, 4⟩
  programOffset := ⟨28, 4⟩
  sectionOffset := ⟨32, 4⟩
  programEntrySize := ⟨42, 2⟩
  programCount := ⟨44, 2⟩
  sectionEntrySize := ⟨46, 2⟩
  sectionCount := ⟨48, 2⟩
  namesIndex := ⟨50, 2⟩
  programSize := 32
  programType := ⟨0, 4⟩
  programFileOffset := ⟨4, 4⟩
  programFileSize := ⟨16, 4⟩
  programAddress := ⟨8, 4⟩
  programMemorySize := ⟨20, 4⟩
  sectionSize := 40
  sectionName := ⟨0, 4⟩
  sectionType := ⟨4, 4⟩
  sectionFlags := ⟨8, 4⟩
  sectionFileOffset := ⟨16, 4⟩
  sectionFileSize := ⟨20, 4⟩
  sectionLink := ⟨24, 4⟩
  sectionInfo := ⟨28, 4⟩
  compressionHeader := 12
  compressionType := ⟨0, 4⟩
  compressionSize := ⟨4, 4⟩

/-- The layout of 64-bit files. -/
def wideLayout : Layout where
  headerSize := 64
  version := ⟨20, 4⟩
  programOffset := ⟨32, 8⟩
  sectionOffset := ⟨40, 8⟩
  programEntrySize := ⟨54, 2⟩
  programCount := ⟨56, 2⟩
  sectionEntrySize := ⟨58, 2⟩
  sectionCount := ⟨60, 2⟩
  namesIndex := ⟨62, 2⟩
  programSize := 56
  programType := ⟨0, 4⟩
  programFileOffset := ⟨8, 8⟩
  programFileSize := ⟨32, 8⟩
  programAddress := ⟨16, 8⟩
  programMemorySize := ⟨40, 8⟩
  sectionSize := 64
  sectionName := ⟨0, 4⟩
  sectionType := ⟨4, 4⟩
  sectionFlags := ⟨8, 8⟩
  sectionFileOffset := ⟨24, 8⟩
  sectionFileSize := ⟨32, 8⟩
  sectionLink := ⟨40, 4⟩
  sectionInfo := ⟨44, 4⟩
  compressionHeader := 24
  compressionType := ⟨0, 4⟩
  compressionSize := ⟨8, 8⟩

def Width.layout : Width → Layout
  | .narrow => narrowLayout
  | .wide => wideLayout

def Field.read (f : Field) (order : ByteOrder) (record : Bytes) : Nat :=
  Bytes.number order f.size (record.drop f.offset)

/-- The `n` bytes at an offset, if the file holds them. Nothing can be read anywhere. -/
def bytesAt? (file : Bytes) (offset n : Nat) : Option Bytes :=
  if n == 0 then some []
  else
    let b := (file.drop offset).take n
    if b.length == n then some b else none

structure Segment where
  type : Nat
  address : Nat
  memorySize : Nat
deriving DecidableEq, Repr

def nullType : Nat := 0

def loadType : Nat := 1

structure SectionHeader where
  name : Nat
  type : Nat
  flags : Nat
  offset : Nat
  size : Nat
deriving DecidableEq, Repr

/-- What is used of an executable file. -/
structure Header where
  width : Width
  order : ByteOrder
  programOffset : Nat
  programEntrySize : Nat
  segments : List Segment
deriving DecidableEq, Repr

def fits (n : Nat) : Bool := n < 0x8000000000000000

def readSegments? (l : Layout) (order : ByteOrder) (file : Bytes) (offset size count : Nat) :
    Option (List Segment) := do
  if 0 < count && size < l.programSize then none
  else
    let table ← bytesAt? file offset (count * size)
    let records := table.rows size
    if records.all fun r =>
        fits (l.programFileOffset.read order r) && fits (l.programFileSize.read order r) then
      some (records.map fun r =>
        ⟨l.programType.read order r, l.programAddress.read order r,
         l.programMemorySize.read order r⟩)
    else none

/-- The flag of a section that is loaded into memory. -/
def allocatedFlag : Nat := 2

/-- The flag of a section whose contents are compressed. -/
def compressedFlag : Nat := 0x800

/-- The first `n` bytes of contents that are compressed by a method, if the method is known and they
are there. -/
def expandBy? (method n : Nat) (stream : Bytes) : Option Bytes :=
  match method with
  | 1 => Compression.Deflate.expand? n stream
  | 2 => Compression.Zstandard.expand? n stream
  | _ => none

def namesType : Nat := 3

def firstReserved : Nat := 0xff00

/-- The value of a field that means that the real one is stored elsewhere. -/
def extended : Nat := 0xffff

/-- Whether a name starts inside the names and ends with a zero byte. -/
def nameEnds (names : Bytes) (start : Nat) : Bool := (names.drop start).contains 0

/-- The counts of a file: of its program headers, of its sections, and the index of the section of
names. -/
structure Counts where
  programs : Nat
  sections : Nat
  names : Nat
deriving DecidableEq, Repr

namespace Counts

/-- Whether some of the counts do not fit the file header. -/
def areExtended (c : Counts) : Bool := c.sections == 0 || c.programs == extended

/-- The number of sections and the index of their names, where `first` is the first section header.
-/
def sectionsFrom? (l : Layout) (order : ByteOrder) (first : Bytes) (c : Counts) : Option Counts :=
  if c.sections != 0 then some c
  else
    let sections := l.sectionFileSize.read order first
    let link := l.sectionLink.read order first
    if sections < firstReserved || !fits sections then none
    else if c.names != extended then some { c with sections }
    else if link < firstReserved || sections ≤ link then none
    else some { c with sections, names := link }

/-- The number of program headers, where `first` is the first section header. -/
def programsFrom? (l : Layout) (order : ByteOrder) (first : Bytes) (c : Counts) : Option Counts :=
  if c.programs != extended then some c
  else
    let programs := l.sectionInfo.read order first
    if programs < extended then none else some { c with programs }

/-- The counts that are meant, where the sections start at `offset`. Counts that do not fit the file
header stand in the first section header. -/
def resolve? (l : Layout) (order : ByteOrder) (file : Bytes) (offset : Nat) (c : Counts) :
    Option Counts :=
  if offset == 0 && c.sections != 0 then none
  else if 0 < c.sections && c.sections ≤ c.names then none
  else if offset == 0 || !c.areExtended then some c
  else do
    let first ← bytesAt? file offset l.sectionSize
    if l.sectionType.read order first != nullType then none
    else (← sectionsFrom? l order first c).programsFrom? l order first

end Counts

def SectionHeader.read (l : Layout) (order : ByteOrder) (record : Bytes) : SectionHeader where
  name := l.sectionName.read order record
  type := l.sectionType.read order record
  flags := l.sectionFlags.read order record
  offset := l.sectionFileOffset.read order record
  size := l.sectionFileSize.read order record

namespace SectionHeader

def isCompressed (s : SectionHeader) : Bool := s.flags &&& compressedFlag != 0

def compression? (l : Layout) (file : Bytes) (s : SectionHeader) : Option Bytes :=
  if s.size < l.compressionHeader then none else bytesAt? file s.offset l.compressionHeader

/-- Whether the place of a section and the header of its contents can be read. -/
def isReadable (l : Layout) (file : Bytes) (s : SectionHeader) : Bool :=
  fits s.offset && fits s.size && (!s.isCompressed || (s.compression? l file).isSome)

/-- The first bytes of compressed contents, as many as the header in front says. Nothing can be read
whatever the contents are; contents of a section that is loaded may not be compressed. -/
def expanded? (l : Layout) (order : ByteOrder) (file : Bytes) (s : SectionHeader) :
    Option Bytes := do
  let h ← s.compression? l file
  let size := l.compressionSize.read order h
  if size == 0 then some []
  else if s.flags &&& allocatedFlag != 0 then none
  else
    let stream := (file.drop s.offset).take s.size
    expandBy? (l.compressionType.read order h) size (stream.drop l.compressionHeader)

def contents? (l : Layout) (order : ByteOrder) (file : Bytes) (s : SectionHeader) : Option Bytes :=
  if s.isCompressed then s.expanded? l order file else bytesAt? file s.offset s.size

end SectionHeader

def SectionHeader.holdsNames (l : Layout) (order : ByteOrder) (file : Bytes)
    (sections : List SectionHeader) (s : SectionHeader) : Bool :=
  s.type == namesType &&
    (s.contents? l order file).any fun names => sections.all (nameEnds names ·.name)

/-- Reads the section headers and the names of the sections, of which nothing is used. A table that
is counted in the first section header may be too short for the index of the names. -/
def readSections (l : Layout) (order : ByteOrder) (file : Bytes)
    (offset size count namesIndex : Nat) : Except Failure Unit :=
  if 0 < count && size < l.sectionSize then .error .unreadableExecutable
  else
    match bytesAt? file offset (count * size) with
    | none => .error .unreadableExecutable
    | some table =>
      let sections := (table.rows size).map (SectionHeader.read l order)
      if !sections.all (·.isReadable l file) then .error .unreadableExecutable
      else if sections.isEmpty || namesIndex == 0 then .ok ()
      else
        match sections[namesIndex]? with
        | none => .error .outOfRange
        | some s =>
          if s.holdsNames l order file sections then .ok () else .error .unreadableExecutable

/-- The width that the identification names. -/
def widthOf? (b : UInt8) : Option Width :=
  if b == 1 then some .narrow else if b == 2 then some .wide else none

def orderOf? (b : UInt8) : Option ByteOrder :=
  if b == 1 then some .little else if b == 2 then some .big else none

/-- A part that every well-formed file has. -/
def required {α : Type} (part : Option α) : Except Failure α :=
  match part with
  | some x => .ok x
  | none => .error .unreadableExecutable

def Header.parse (file : Bytes) : Except Failure Header := do
  let width ← required (widthOf? (file.getD 4 0))
  let order ← required (orderOf? (file.getD 5 0))
  let l := width.layout
  let h ← required (bytesAt? file 0 l.headerSize)
  let programOffset := l.programOffset.read order h
  let programEntrySize := l.programEntrySize.read order h
  let sectionOffset := l.sectionOffset.read order h
  if file.getD 6 0 != 1 || l.version.read order h != 1 || !fits programOffset ||
      !fits sectionOffset then
    .error .unreadableExecutable
  else
    let counts ← required (Counts.resolve? l order file sectionOffset
      { programs := l.programCount.read order h
        sections := l.sectionCount.read order h
        names := l.namesIndex.read order h })
    let segments ← required (readSegments? l order file programOffset programEntrySize
      counts.programs)
    readSections l order file sectionOffset (l.sectionEntrySize.read order h) counts.sections
      counts.names
    return ⟨width, order, programOffset, programEntrySize, segments⟩

end Executable
end Firmware
