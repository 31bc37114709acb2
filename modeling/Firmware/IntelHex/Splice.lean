import Firmware.IntelHex.Line

/-!
# Data across lines

Reading and overwriting data bytes in a list of record lines, from a byte offset in one data record
on through the data records that follow. Lines that are not data records are passed over.
-/

namespace Firmware
namespace IntelHex

def holdsData (b : Bytes) : Bool := 5 < b.length && b[3]? == some dataType

/-- The data of a line's bytes from offset `off` on; an offset before the data counts back into
the record's head. -/
def dataFrom (off : Int) (b : Bytes) : Except Failure Bytes :=
  let start := wrap64 (4 + off)
  if holdsData b && start < (b.length : Int) - 1 then
    if start < 0 then .error .outOfRange
    else .ok (b.dropLast.drop start.toNat)
  else .ok []

/-- Adds data to `out` until there are `n` bytes or no more lines. -/
def collect (n : Nat) : Int → Bytes → List String → Except Failure Bytes
  | _, out, [] => .ok out
  | off, out, line :: rest =>
    if n ≤ out.length then .ok out
    else do
      let b ← bytes line
      let data ← dataFrom off b
      collect n 0 (out ++ data) rest

/-- The `n` data bytes from offset `off` of the data of line `lineNo` on; fewer when the lines end
first. -/
def readData (lines : List String) (lineNo off n : Int) : Except Failure Bytes :=
  if n < 0 then .error .outOfRange
  else if n == 0 then .ok []
  else if lineNo < 0 then .error .outOfRange
  else do
    let out ← collect n.toNat off [] (lines.drop lineNo.toNat)
    return out.take n.toNat

/-- Overwrites data from offset `off` of the first line on. Gives the lines as they are then, also
when it fails part of the way. -/
def overwrite : Int → Bytes → List String → List String × Option Failure
  | _, [], lines => (lines, none)
  | _, _ :: _, [] => ([], some .patchPastEnd)
  | off, patch, line :: rest =>
    match bytes line with
    | .error f => (line :: rest, some f)
    | .ok b =>
      if holdsData b then
        let start := wrap64 (4 + off)
        if start < 0 then (line :: rest, some .outOfRange)
        else
          let head : Bytes := b.dropLast
          let start := start.toNat
          let (rest, fault) := overwrite 0 (patch.drop (head.length - start)) rest
          (render (head.overwrite start patch) :: rest, fault)
      else
        let (rest, fault) := overwrite 0 patch rest
        (line :: rest, fault)

/-- Overwrites data bytes from offset `off` of the data of line `lineNo` on, with new checksums on
the lines that are touched. -/
def writeData (lines : List String) (lineNo off : Int) (patch : Bytes) :
    List String × Option Failure :=
  if patch.isEmpty then (lines, none)
  else if lineNo < 0 then (lines, some .outOfRange)
  else
    let n := lineNo.toNat
    let (rest, fault) := overwrite off patch (lines.drop n)
    (lines.take n ++ rest, fault)

end IntelHex
end Firmware
