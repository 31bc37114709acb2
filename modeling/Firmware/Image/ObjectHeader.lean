import Firmware.IntelHex.Splice
import Firmware.Template.Basic
import Firmware.Uf2.BlockFile

/-!
# Headers of constant objects

Constant strings and buffers are aligned to four bytes and start with a placeholder of six bytes,
"@PXT@:" for a string and "@PXT#:" for a buffer. Linking replaces it with the header of the object:
the address of its dispatch table, or a reference count for read-only objects and the shortened
address, and then the length. The length of a string is found by looking for the zero behind it.
-/

namespace Firmware

structure ObjectHeader where
  word : UInt32
  length : UInt16
deriving DecidableEq, Repr

namespace ObjectHeader

/-- The four bytes that start a placeholder. -/
def marker : Bytes := [0x40, 0x50, 0x58, 0x54]

def size : Nat := 6

/-- How much of an object is looked at. -/
def window : Nat := 200

def flashCount : UInt32 := 0xfffe

def encode (h : ObjectHeader) : Bytes := Bytes.ofWord32 h.word ++ Bytes.ofWord16 h.length

inductive Kind where
  | string
  | buffer
deriving DecidableEq, Repr

def kind? : Bytes → Option Kind
  | 0x40 :: 0x3A :: _ => some .string
  | 0x23 :: 0x3A :: _ => some .buffer
  | _ => none

/-- The dispatch table of a kind. -/
def Kind.vtable : Kind → String
  | .string => "pxt::string_inline_ascii_vt"
  | .buffer => "pxt::buffer_vt"

def firstWord (t : Target) (vtable : UInt32) : UInt32 :=
  if t.gc then vtable else flashCount ||| (shiftRight32 vtable t.vtableShift <<< 16)

/-- The header of an object of the given kind whose contents start with `content`. -/
def ofContent (t : Template) (kind : Kind) (content : Bytes) : Except Failure ObjectHeader :=
  match t.address? kind.vtable with
  | none => .error (.missingVtable kind.vtable)
  | some address =>
    if address == 0 then .error (.missingVtable kind.vtable)
    else
      let vtable := address ^^^ 1
      if vtable &&& 3 != 0 then .error (.unalignedVtable vtable)
      else
        let length := match kind with
          | .string => (content.takeWhile (· != 0)).length
          | .buffer => 0
        if content.length ≤ length then .error .constantTooLong
        else .ok ⟨firstWord t.target vtable, length.toUInt16⟩

/-- The header of the object that starts at `b`, which has to start with the marker. None when the
marker does not belong to a placeholder. -/
def at? (t : Template) (b : Bytes) : Except Failure (Option ObjectHeader) :=
  if marker.isPrefixOf b then
    match kind? (b.drop marker.length) with
    | none => .ok none
    | some kind => (ofContent t kind (b.drop size)).map some
  else .error .noStringMarker

/-! ## In a flat image -/

/-- Replaces the placeholders at every fourth byte of what is left of an image, behind the reversed
bytes `acc`. The last eight bytes are not looked at. What follows a placeholder's first four bytes
never starts with the marker. -/
def replaceOnto (t : Template) (acc : Bytes) : Bytes → Except Failure Bytes
  | b0 :: b1 :: b2 :: b3 :: b4 :: b5 :: b6 :: b7 :: b8 :: rest =>
    let here := b0 :: b1 :: b2 :: b3 :: b4 :: b5 :: b6 :: b7 :: b8 :: rest
    if marker.isPrefixOf here then
      match at? t (here.take window) with
      | .error f => .error f
      | .ok none =>
        replaceOnto t (b3 :: b2 :: b1 :: b0 :: acc) (b4 :: b5 :: b6 :: b7 :: b8 :: rest)
      | .ok (some h) => replaceOnto t (b7 :: b6 :: h.encode.reverse ++ acc) (b8 :: rest)
    else replaceOnto t (b3 :: b2 :: b1 :: b0 :: acc) (b4 :: b5 :: b6 :: b7 :: b8 :: rest)
  | b => .ok (acc.reverse ++ b)

/-- Replaces the placeholders in a flat image. -/
def replaceIn (t : Template) (b : Bytes) : Except Failure Bytes := replaceOnto t [] b

/-! ## In a block file -/

/-- Replaces the placeholders at every fourth byte of a page. An object may go on in pages that
follow. -/
def replaceInPage (t : Template) (f : Uf2.BlockFile) (number : UInt32) :
    Except Failure Uf2.BlockFile :=
  let base := number <<< 8
  let data := (f.read base Uf2.payloadSize).getD []
  let offsets := (List.range (Uf2.payloadSize / 4)).map (· * 4)
  (offsets.filter fun off => marker.isPrefixOf (data.drop off)).foldlM (fun f off => do
    let address := base + off.toUInt32
    match ← at? t ((f.read address window).getD []) with
    | none => return f
    | some h => return f.write address h.encode 0) f

/-- Replaces the placeholders in the pages that have been written. -/
def replaceInPages (t : Template) (f : Uf2.BlockFile) : Except Failure Uf2.BlockFile :=
  f.pageNumbers.foldlM (replaceInPage t) f

/-! ## In record lines -/

def markerDigits : Bytes := Utf8.encode "40505854"

/-- The digits in front of the data of a record line. -/
def headDigits : Nat := 9

/-- Replaces the placeholders in the first of the lines, from character `pos` of it on. Digits that
belong to the head or the checksum of the record are passed over, and so are those that start in
the middle of a byte. A line that is written loses the space around it, and then `pos` may lie
behind its end, which cannot be. Every step moves `pos` on, so the length of the line bounds the
number of steps, which is `fuel`. -/
def replaceInLine (t : Template) : Nat → Nat → List String → Except Failure (List String)
  | _, _, [] => .ok []
  | 0, _, lines => .ok lines
  | fuel + 1, pos, line :: rest => do
    let digits := Utf8.encode line
    if digits.length < pos then throw .outOfRange
    match Bytes.findFrom markerDigits pos (digits.drop pos) with
    | none => return line :: rest
    | some i =>
      if i < headDigits || digits.length < i + markerDigits.length + 2 ||
          (i - headDigits) % 2 != 0 then
        replaceInLine t fuel (i + 1) (line :: rest)
      else
        let off : Nat := (i - headDigits) / 2
        let b ← IntelHex.readData (line :: rest) 0 off window
        match ← at? t b with
        | none => replaceInLine t fuel (i + 1) (line :: rest)
        | some h =>
          match IntelHex.writeData (line :: rest) 0 off h.encode with
          | (_, some f) => throw f
          | (lines, none) => replaceInLine t fuel (i + 1) lines

/-- Replaces the placeholders in the first `n` of the lines, behind the reversed lines `acc`. -/
def replaceInLinesOnto (t : Template) : Nat → List String → List String →
    Except Failure (List String)
  | n + 1, acc, line :: rest => do
    -- a line that lacks its colon gets one when it is written
    match ← replaceInLine t ((Utf8.encode line).length + 2) 0 (line :: rest) with
    | [] => return acc.reverse
    | line :: rest => replaceInLinesOnto t n (line :: acc) rest
  | _, acc, lines => .ok (acc.reverse ++ lines)

/-- Replaces the placeholders in record lines. An object may go on in lines that follow. -/
def replaceInLines (t : Template) (lines : List String) : Except Failure (List String) :=
  replaceInLinesOnto t lines.length [] lines

end ObjectHeader
end Firmware
