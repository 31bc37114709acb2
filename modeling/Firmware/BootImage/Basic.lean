import Firmware.BootImage.Chip
import Firmware.Text.Base64

/-!
# Boot images

A boot image is a header of 24 bytes and a list of segments, each an address and data. Reading one
drops the segments that only fill space, and joins a segment to the one before it when it carries
on at its end.
-/

namespace Firmware
namespace BootImage

/-- The first byte of an image. -/
def magic : UInt8 := 0xE9

def headerSize : Nat := 24

def segmentHeadSize : Nat := 8

/-- The header byte that tells whether a digest follows. -/
def digestFlagOffset : Nat := 23

/-- A region that is loaded or mapped. -/
structure Segment where
  address : UInt32
  /-- Mapped through the flash cache. -/
  isMapped : Bool
  isReadOnly : Bool
  data : Bytes
deriving DecidableEq, Repr

namespace Segment

/-- The address behind the last byte. -/
def stop (s : Segment) : UInt32 := s.address + s.data.length.toUInt32

def render (s : Segment) : String :=
  "0x" ++ Numeral.hex s.address.toNat ++ " 0x" ++ Numeral.hex s.data.length ++ " bytes; " ++
    (if s.isReadOnly then "drom " else "") ++ (if s.isMapped then "mapped " else "") ++
    Hexadecimal.lower (s.data.take 20) ++ "..."

end Segment
end BootImage

structure BootImage where
  header : Bytes
  chip : String
  segments : List BootImage.Segment
deriving DecidableEq, Repr

namespace BootImage

def readOnly? (img : BootImage) : Option Segment := img.segments.find? (·.isReadOnly)

def updateReadOnly (f : Segment → Segment) : List Segment → List Segment
  | [] => []
  | s :: rest => if s.isReadOnly then f s :: rest else s :: updateReadOnly f rest

/-! ## Reading -/

/-- Adds what stands at an address to the segments read so far, last first. -/
def addSegment (chip : Chip) (segments : List Segment) (address : UInt32) (data : Bytes) :
    List Segment :=
  if chip.isPadding address then segments
  else
    let fresh : Segment := ⟨address, chip.isMapped address, chip.isReadOnlyData address, data⟩
    match segments with
    | [] => [fresh]
    | last :: before =>
      if last.stop == address then { last with data := last.data ++ data } :: before
      else fresh :: last :: before

/-- Reads `n` segments from `b`, where `segments` are those read so far, last first. -/
def readSegments (chip : Chip) : Nat → List Segment → Bytes → Except Failure (List Segment)
  | 0, segments, _ => .ok segments.reverse
  | n + 1, segments, b =>
    if b.length < segmentHeadSize then .error .truncatedSegments
    else
      let address := b.word32At 0
      let size := (b.word32At 4).toNat
      let rest := b.drop segmentHeadSize
      if rest.length < size then .error .truncatedSegments
      else
        readSegments chip n (addSegment chip segments address (rest.take size)) (rest.drop size)

def parse (b : Bytes) : Except Failure BootImage :=
  if b.length < headerSize then .error (.bootImageTooShort b.length)
  else if b.getD 0 0 != magic then .error (.badBootMagic (b.getD 0 0))
  else
    let id := Bytes.word16 (b.drop 12)
    match Chip.find? id with
    | none => .error (.unknownChip id)
    | some chip => do
      let segments ← readSegments chip (b.getD 1 0).toNat [] (b.drop headerSize)
      return ⟨b.take headerSize, chip.name, segments⟩

/-- Reads an image given as base64 text on several lines. -/
def parseLines (lines : List String) : Except Failure BootImage :=
  match Base64.decode (lines.flatMap Utf8.encode) with
  | .error position => .error (.badBase64 position)
  | .ok b => parse b

end BootImage
end Firmware
