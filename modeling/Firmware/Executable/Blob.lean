import Firmware.Executable.Header

/-!
# Blob templates

A template that is a single blob is a 32-bit executable or a flat binary that is loaded at address
zero. The program goes behind the template, page aligned; in an executable, a program header that
is not in use is turned into one that loads the program.
-/

namespace Firmware

structure Blob where
  isExecutable : Bool
  /-- The load address of the program. -/
  memoryStart : UInt32
  /-- The offset of the program in the image. -/
  fileStart : UInt32
  /-- The file offset of the first program header that is not in use; negative when there is none.
  -/
  spareHeader : Int := -1
  order : ByteOrder
  template : Bytes
deriving DecidableEq, Repr

namespace Blob

open Executable

/-- The end of the memory that the segments are loaded to, in 32-bit arithmetic. -/
def memoryEnd (segments : List Segment) : UInt32 :=
  (segments.filter (·.type == loadType)).foldl
    (fun acc s => max acc (s.address + s.memorySize).toUInt32) 0

/-- The blob of a 32-bit executable. -/
def ofHeader (h : Header) (data : Bytes) (align : UInt32) : Blob :=
  { isExecutable := true
    memoryStart := alignUp (memoryEnd h.segments) align
    fileStart := alignUp data.length.toUInt32 align
    spareHeader := match h.segments.findIdx? (·.type == nullType) with
      | some i => h.programOffset + i * h.programEntrySize
      | none => -1
    order := h.order
    template := data }

/-- Reads a blob template for programs of the given alignment. -/
def parse (data : Bytes) (align : UInt32) : Except Failure Blob :=
  if Executable.magic.isPrefixOf data then
    if data.length < 16 then .error .unreadableExecutable
    else do
      let h ← Header.parse data
      match h.width with
      | .wide => .error .wideExecutable
      | .narrow => .ok (ofHeader h data align)
  else
    let start := alignUp data.length.toUInt32 align
    .ok
      { isExecutable := false
        memoryStart := start
        fileStart := start
        order := .little
        template := data }

/-- Readable and executable. -/
def loadFlags : UInt32 := 5

def loadHeader (b : Blob) (size : UInt32) : Bytes :=
  [loadType.toUInt32, b.fileStart, b.memoryStart, b.memoryStart, size, size, loadFlags, 4].flatMap
    (Bytes.ofWord32In b.order)

def headerSize : Nat := 32

/-- The template with a program behind it. -/
def patch (b : Blob) (program : Bytes) : Except Failure Bytes :=
  let image := b.template.resize b.fileStart.toNat 0 ++ program
  if !b.isExecutable then .ok image
  else if b.spareHeader < 0 then .error .noSpareHeader
  else
    let off := b.spareHeader.toNat
    if off + headerSize ≤ image.length then
      .ok (Bytes.overwrite image off (b.loadHeader program.length.toUInt32))
    else .error .outOfRange

end Blob
end Firmware
