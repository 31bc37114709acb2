import Firmware.Template.HexLines

/-!
# Reading templates

The shape of a template follows from its target and the number of its lines: a boot image in base64
for targets that use one, nothing at all for other virtual machines, a blob in hexadecimal digits
on one or two lines, record lines otherwise.
-/

namespace Firmware
namespace Template

/-- The address that stands for every function of a virtual machine without a template. -/
def sentinel : UInt32 := 0xffffff

/-- The bytes that precede the function table in a boot image. -/
def bootMarker : Bytes :=
  [0x01, 0x08, 0x01, 0x08, 0x42, 0x42, 0x42, 0x42, 0x01, 0x08, 0x01, 0x08, 0x3E, 0xD8, 0xE9, 0x8D,
   0x56]

/-- The bytes that precede the jump table in a blob. -/
def blobMarker : Bytes := bootMarker.take 16

def parseBlob (t : Target) (e : Extension) (text : String) : Except Failure Template := do
  let digits := (Text.trimChars text.toList).map Text.lower
  let data ← match Hexadecimal.decodeChars digits with
    | .ok data => pure data
    | .error f => throw (.badBlob f)
  let blob ← Blob.parse data t.pageSize
  let some offset := data.find? blobMarker | throw .noJumpTable
  -- the table takes what the functions need and eight bytes more
  let room := e.functions.length * (t.pointerDigits / 2) + 8
  let table := (data.drop (offset + blobMarker.length)).take room
  let pointers ← PointerReader.addDigits t { waiting := e.functions }
    (Utf8.encode (Hexadecimal.lower table))
  let functions ← pointers.finish
  return {
    sha := e.sha
    codeStart := blob.memoryStart
    codeStartPadded := blob.memoryStart
    jumpTable := offset.toUInt32
    commBase := e.commBase
    functions
    blob := some blob
    target := t }

/-- Reads a boot image. The program goes behind the read-only data, page aligned. -/
def parseBoot (t : Target) (e : Extension) : Except Failure Template := do
  let img ← BootImage.parseLines e.hex
  let some segment := img.readOnly? | throw .noReadOnlySegment
  let some offset := Bytes.find? segment.data bootMarker | throw .noFunctionTable
  let pointers ← PointerReader.addBytes t { waiting := e.functions }
    (segment.data.drop (offset + bootMarker.length))
  let functions ← pointers.finish
  let start := alignUp segment.stop t.pageSize
  return {
    sha := e.sha
    codeStart := start
    codeStartPadded := start
    commBase := e.commBase
    functions
    boot := some img
    markerOffset := offset
    target := t }

/-- The template of a virtual machine that has none: every function has the same address. -/
def ofVm (t : Target) (e : Extension) : Template :=
  { sha := e.sha
    commBase := e.commBase
    functions := e.functions.foldl
      (fun fs f => FunctionTable.insert fs { f with value := sentinel }) []
    target := t }

def parse (t : Target) (e : Extension) : Except Failure Template :=
  if t.useBootImage then parseBoot t e
  else if !t.isNative then .ok (ofVm t e)
  else
    match e.hex with
    | [] => .error .emptyTemplate
    | [text] => parseBlob t e text
    | [text, _] => parseBlob t e text
    | _ => parseLines t e

end Template
end Firmware
