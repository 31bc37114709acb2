import Firmware.DatabaseFile.Header
import Firmware.Text.Utf16

/-!
# Records

A row of a table is a record: a head that gives the type of every value, then the values. Numbers
in it are written with seven bits to a byte, highest first, in at most nine bytes of which the last
one has eight.
-/

namespace Firmware
namespace DatabaseFile

/-! ## Numbers of variable length -/

/-- Reads a number that goes on for at most `n` more bytes, after the bits in `high`. Gives the
rest, too. -/
def readVarintFrom (high : Nat) : Nat → Bytes → Option (Nat × Bytes)
  | _, [] => none
  | 0, b :: rest => some (high * 256 + b.toNat, rest)
  | n + 1, b :: rest =>
    let value := high * 128 + (b &&& 0x7F).toNat
    if b < 0x80 then some (value, rest) else readVarintFrom value n rest

/-- The most bytes of a number but for the last one. -/
def longestVarint : Nat := 8

/-- The number at the start of bytes and the rest. -/
def readVarint? (b : Bytes) : Option (Nat × Bytes) := readVarintFrom 0 longestVarint b

/-! ## Values -/

inductive Value where
  | null
  | integer (n : Int)
  /-- A number with a fraction, by its bytes. -/
  | real (bytes : Bytes)
  | text (bytes : Bytes)
  | blob (bytes : Bytes)
deriving DecidableEq, Repr

namespace Value

/-- What a value reads as, if it is not null. A number with a fraction reads as nothing. -/
def text? : Value → Option Bytes
  | .null => none
  | .integer n => some (Utf8.encode (Numeral.decimal n))
  | .real _ => some []
  | .text b | .blob b => some b

/-- The value with its text in UTF-8, given the order of bytes of wide texts. -/
def narrow (order : Option ByteOrder) : Value → Value
  | .text b => .text ((order.map fun o => Utf16.toUtf8 o b).getD b)
  | v => v

/-- The number of bytes of a value of the given type. -/
def size (type : Nat) : Nat :=
  match type with
  | 0 | 8 | 9 | 10 | 11 => 0
  | 1 | 2 | 3 | 4 => type
  | 5 => 6
  | 6 | 7 => 8
  | _ => (type - 12) / 2

def signed (b : Bytes) : Int := (Bytes.number .big b.length b : Int).bmod (1 <<< (8 * b.length))

def ofBytes (type : Nat) (b : Bytes) : Value :=
  match type with
  | 0 | 10 | 11 => .null
  | 7 => .real b
  | 8 => .integer 0
  | 9 => .integer 1
  | _ =>
    if type < 12 then .integer (signed b)
    else if type % 2 == 0 then .blob b
    else .text b

end Value

/-! ## Rows -/

/-- At most `n` types that the head of a record lists, and the rest of the head. -/
def readTypes : (n : Nat) → Bytes → Option (List Nat × Bytes)
  | 0, b => some ([], b)
  | _, [] => some ([], [])
  | n + 1, b => do
    let (type, rest) ← readVarint? b
    let (types, rest) ← readTypes n rest
    return (type :: types, rest)

/-- The values of the given types at the start of bytes, and the rest. -/
def readValues : List Nat → Bytes → Option (List Value × Bytes)
  | [], b => some ([], b)
  | type :: types, b => do
    let (bytes, rest) ← Bytes.split? (Value.size type) b
    let (values, rest) ← readValues types rest
    return (Value.ofBytes type bytes :: values, rest)

/-- The first `width` values of a record. One whose head is empty has none, and when the head lists
no more values they have to take up the record. -/
def readRecord? (width : Nat) (payload : Bytes) : Option (List Value) :=
  match readVarint? payload with
  | none | some (0, _) => some []
  | some (size, rest) => do
    let (types, body) ← Bytes.split? (size - (payload.length - rest.length)) rest
    let (types, more) ← readTypes width types
    let (values, left) ← readValues types body
    if size < payload.length - rest.length || (more.isEmpty && !left.isEmpty) then none
    else some values

/-- The value in a column; rows can be shorter than their table. -/
def valueAt (row : List Value) (i : Nat) : Value := row.getD i .null

end DatabaseFile
end Firmware
