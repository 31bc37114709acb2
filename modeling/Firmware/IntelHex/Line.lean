import Firmware.Failure
import Firmware.Text.Blank

/-!
# Record lines

A template or an image is a list of record lines: a colon and the hexadecimal digits of a length,
a 16-bit address, a type, the data, and a checksum that makes the sum of all bytes zero.

Lines of templates come from outside and need not be well formed, so what is read off a line is
stated on its characters: a line may have an address without having valid data.
-/

namespace Firmware
namespace IntelHex

def dataType : UInt8 := 0x00

/-- The type of the record that sets the upper half of addresses. -/
def linearType : UInt8 := 0x04

/-- The type of records that hold packed source, which programmers skip. -/
def packedSourceType : UInt8 := 0x0E

/-- The record line of a row of bytes, checksum added. -/
def render (b : Bytes) : String := ":" ++ Hexadecimal.upper (b ++ [-(Bytes.sum b)])

def renderRecord (type : UInt8) (address : UInt16) (data : Bytes) : String :=
  render ([data.length.toUInt8, (address >>> 8).toUInt8, address.toUInt8, type] ++ data)

/-- The record line that sets the upper half of the addresses that follow. -/
def linearRecord (upper : UInt32) : String :=
  renderRecord linearType 0 [(upper >>> 8).toUInt8, upper.toUInt8]

/-! ## Bytes of a line -/

/-- The digits of a line: without surrounding space and one leading colon. -/
def digits (line : String) : List Char :=
  match Text.trimChars line.toList with
  | ':' :: rest => rest
  | cs => cs

def bytes (line : String) : Except Failure Bytes :=
  let cs := digits line
  match Hexadecimal.decodeChars cs with
  | .ok b => .ok b
  | .error f => .error (.badBytes (String.ofList cs) f)

structure Record where
  length : Nat
  address : UInt16
  type : UInt8
  data : Bytes
deriving DecidableEq, Repr

/-- Decodes a line whose length byte and checksum have to be right. -/
def Record.parse (line : String) : Except Failure Record := do
  let b ← bytes line
  match b with
  | n :: hi :: lo :: type :: rest =>
    if rest.length == n.toNat + 1 then
      if Bytes.sum b == 0 then
        return ⟨n.toNat, (hi.toUInt16 <<< 8) ||| lo.toUInt16, type, rest.dropLast⟩
      else throw (.badRecordChecksum line)
    else throw (.malformedRecord line)
  | _ => throw (.malformedRecord line)

/-- The byte pairs of a row of digits in reverse order, counted from the end; a digit too many at
the front is left out. Turns stored words into numerals. -/
def swapPairs (digits : Bytes) : Bytes :=
  let even := digits.drop (digits.length % 2)
  (Bytes.rows 2 even).reverse.flatten

/-! ## What stands on a line -/

/-- The first `n` characters, none of them a line end, and the rest. -/
def takeAny (n : Nat) (cs : List Char) : Option (List Char × List Char) :=
  let head := cs.take n
  if head.length == n && !head.contains '\n' then some (head, cs.drop n) else none

/-- What follows `lead` at the start. -/
def after? (lead cs : List Char) : Option (List Char) :=
  if lead.isPrefixOf cs then some (cs.drop lead.length) else none

/-- The address digits of a data record at the start of the line, and what follows its type. -/
def dataStart? (cs : List Char) : Option (List Char × List Char) := do
  let (_, rest) ← takeAny 2 (← after? [':'] cs)
  let (address, rest) ← takeAny 4 rest
  return (address, ← after? ['0', '0'] rest)

def dataAddress? (line : String) : Option (List Char) := (dataStart? line.toList).map (·.1)

/-- The digits behind the type of a data record, up to a line end, when there are at least four. -/
def dataDigits? (line : String) : Option (List Char) := do
  let (_, rest) ← dataStart? line.toList
  let digits := rest.takeWhile (· != '\n')
  if 4 ≤ digits.length then some digits else none

def isUpperDigit (c : Char) : Bool := c.isDigit || ('A' ≤ c && c ≤ 'F')

/-- The address and data digits of a whole line that is a data record with a checksum in upper
case. -/
def wholeData? (line : String) : Option (List Char × List Char) := do
  let (address, rest) ← dataStart? line.toList
  let data := rest.take (rest.length - 2)
  let checksum := rest.drop (rest.length - 2)
  if checksum.length == 2 && checksum.all isUpperDigit && !data.contains '\n' then
    some (address, data)
  else none

/-- What the record that sets the upper half of addresses starts with. -/
def linearLead : List Char := ":02000004".toList

/-- The digits of an upper address half, wherever its record stands on the line. -/
def linearDigits? : List Char → Option (List Char)
  | [] => none
  | c :: rest =>
    match (after? linearLead (c :: rest)).bind (takeAny 4) with
    | some (digits, _) => some digits
    | none => linearDigits? rest

def segmentDigits? (line : String) : Option (List Char) := do
  let (_, rest) ← takeAny 4 (← after? [':', '0', '2'] line.toList)
  let (digits, rest) ← takeAny 4 (← after? ['0', '2'] rest)
  let (_, rest) ← takeAny 2 rest
  if rest.isEmpty then some digits else none

/-- Whether the line starts as the record that ends a file. -/
def isEnd (line : String) : Bool := ":00000001".toList.isPrefixOf line.toList

/-- The number that hexadecimal digits stand for; zero when they are none. -/
def valueOf (digits : List Char) : Nat :=
  match Numeral.read (.fixed 16) 32 (Utf8.encode (String.ofList digits)) with
  | .ok n => n
  | .error _ => 0

end IntelHex
end Firmware
