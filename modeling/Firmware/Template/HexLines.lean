import Firmware.Template.JumpTable

/-!
# Templates of record lines

A template of record lines ends at the last data record before the end of the file, before a gap of
more than 64 KB, or before the end of the flash that programs may use. There its last row is
completed to 16 bytes, and the program goes behind it. The jump table is the data behind a record
that holds the marker.
-/

namespace Firmware
namespace Template

/-- The digits of the record data that precedes the jump table. -/
def markerDigits : List Char := "0108010842424242010801083ED8E98D".toList

/-- Whether the line is the data record that precedes the jump table. -/
def isMarkerLine (line : String) : Bool :=
  match IntelHex.after? [':', '1', '0'] line.toList with
  | none => false
  | some rest =>
    match IntelHex.takeAny 4 rest with
    | none => false
    | some (_, rest) => (['0', '0'] ++ markerDigits).isPrefixOf rest

/-! ## Segment records -/

/-- Turns a record that sets a segment base into one that sets the upper address half. Lines
are told by their ninth byte. -/
def withUpperAddress (line : String) : Except Failure String :=
  if (Utf8.encode line)[8]? != some 0x32 then .ok line
  else
    match IntelHex.segmentDigits? line with
    | none => .error (.badSegmentRecord line)
    | some digits =>
      let base := IntelHex.valueOf digits * 16
      if base % 0x10000 != 0 then .error (.unalignedSegmentRecord line)
      else .ok (IntelHex.linearRecord (base / 0x10000).toUInt32)

/-! ## Scanning -/

/-- A line and the address of its first byte. -/
structure Mark where
  line : Nat
  address : UInt32
deriving DecidableEq, Repr

/-- What a scan of the lines has found so far. -/
structure Scan where
  upper : UInt32 := 0
  /-- The last data record. -/
  last : Option Mark := none
  /-- The last data record of the template. -/
  stop : Option Mark := none
  /-- The record that precedes the jump table. -/
  marker : Option Mark := none
deriving DecidableEq, Repr

namespace Scan

/-- Fixes the end of the template at the last data record, unless it is fixed already. -/
def close (s : Scan) : Scan := { s with stop := s.stop <|> s.last }

/-- Takes a data record into account. -/
def addData (t : Target) (s : Scan) (m : Mark) : Scan :=
  let leaves := match s.last with
    | none => false
    | some last =>
      last.address + 0x10000 < m.address ||
        (t.flashUsableEnd != 0 && t.flashUsableEnd ≤ m.address)
  { (if leaves then s.close else s) with last := some m }

/-- Takes a line into account. -/
def addLine (t : Target) (s : Scan) (index : Nat) (line : String) : Scan :=
  let s := match IntelHex.linearDigits? line.toList with
    | some digits => { s with upper := (IntelHex.valueOf digits).toUInt32 }
    | none => s
  let s := match IntelHex.dataAddress? line with
    | some digits =>
      s.addData t ⟨index, (s.upper <<< 16) ||| (IntelHex.valueOf digits).toUInt32⟩
    | none => s
  let s := if IntelHex.isEnd line then s.close else s
  if isMarkerLine line then { s with marker := s.last } else s

def run (t : Target) (s : Scan) (index : Nat) : List String → Scan
  | [] => s
  | line :: rest => run t (s.addLine t index line) (index + 1) rest

end Scan

/-! ## The last row -/

/-- The end of a template: its lines with the last row complete, the line behind which the program
goes, whether that line was inserted, and the address behind the row. -/
structure Ending where
  lines : List String
  lastLine : Nat
  inserted : Bool
  address : UInt32
deriving DecidableEq, Repr

/-- The index of a line once the last row is complete. -/
def Ending.shift (x : Ending) (line : Nat) : Nat :=
  if x.inserted && x.lastLine ≤ line then line + 1 else line

/-- Completes the last row of 16 bytes. A record that starts in the middle of a row, or holds more
than a row, is followed by a record of zeros; another one is extended. -/
def completeRow (lines : List String) (m : Mark) : Except Failure Ending := do
  let b ← IntelHex.bytes (lines.getD m.line "")
  match b with
  | n :: _ :: low :: _ =>
    let stop := m.address + n.toUInt32
    let missing := (0x10 - (stop &&& 0xf)) &&& 0xf
    if missing == 0 then return ⟨lines, m.line, false, stop⟩
    else if low &&& 0xf != 0 || 0x10 < n then
      let filler := IntelHex.renderRecord IntelHex.dataType stop.toUInt16
        (List.replicate missing.toNat 0)
      return ⟨lines.insertIdx (m.line + 1) filler, m.line + 1, true, stop + missing⟩
    else
      let head := b.dropLast
      if 20 < head.length then throw .outOfRange
      else
        let full := (head.set 0 0x10) ++ List.replicate (20 - head.length) 0
        return ⟨lines.set m.line (IntelHex.render full), m.line, false, m.address + 16⟩
  | _ => throw .outOfRange

/-- The first address of the page behind the one that holds `address`. -/
def nextPage (address pageSize : UInt32) : UInt32 := (address &&& ~~~(pageSize - 1)) + pageSize

/-- The end of the template at its last data record. The space up to the next page has to be made
of whole rows. -/
def endAt (t : Target) (lines : List String) (m : Mark) : Except Failure Ending := do
  let x ← completeRow lines m
  let padding := nextPage x.address t.pageSize - x.address
  if padding &&& 0xf != 0 then throw (.unevenPadding padding)
  return x

/-! ## Reading -/

/-- The pointers on a line: the data digits of a data record, without its checksum. -/
def linePointers (t : Target) (p : PointerReader) (line : String) :
    Except Failure PointerReader :=
  if p.isDone then .ok p
  else
    match IntelHex.dataDigits? line with
    | none => .ok p
    | some digits =>
      let row := Utf8.encode (String.ofList digits)
      p.addDigits t (row.take (row.length - 2))

def parseLines (t : Target) (e : Extension) : Except Failure Template := do
  let lines ← e.hex.mapM withUpperAddress
  let scan := Scan.run t {} 0 lines
  let ending ← scan.stop.mapM (endAt t lines)
  let some marker := scan.marker | throw .noHexStart
  let some x := ending | throw .noHexEnd
  let jumpLine := x.shift marker.line
  let pointers ← (x.lines.drop (jumpLine + 1)).foldlM (linePointers t) { waiting := e.functions }
  let functions ← pointers.finish
  let padded := nextPage x.address t.pageSize
  return {
    sha := e.sha
    lines := x.lines
    codeStart := x.address
    codeStartPadded := padded
    codeStartLine := x.lastLine + 1
    codePadding := padded - x.address
    jumpTable := marker.address
    jumpTableLine := jumpLine
    commBase := e.commBase
    functions
    target := t }

end Template
end Firmware
