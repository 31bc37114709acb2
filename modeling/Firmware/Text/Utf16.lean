import Firmware.Text.Utf8

/-!
# UTF-16 text as bytes

Text in units of sixteen bits, in either byte order. Two units of the reserved range make a
character together. Reading is total: a last odd byte is dropped, and a unit of that range with
nothing behind it becomes U+FFFD.
-/

namespace Firmware
namespace Utf16

def units (order : ByteOrder) : Bytes → List Nat
  | a :: b :: rest => Bytes.number order 2 [a, b] :: units order rest
  | _ => []

def isHalf (u : Nat) : Bool := 0xD800 ≤ u && u < 0xE000

/-- The character of a code point, where there is one. -/
def character (n : Nat) : Char := if n.isValidChar then Char.ofNat n else Char.ofNat 0xFFFD

/-- The characters of units. Whatever follows a first half is taken for the second one. -/
def characters : List Nat → List Char
  | [] => []
  | [u] => [character u]
  | u :: v :: rest =>
    if isHalf u then character ((u % 0x400) * 0x400 + v % 0x400 + 0x10000) :: characters rest
    else character u :: characters (v :: rest)

/-- The same text in UTF-8. -/
def toUtf8 (order : ByteOrder) (b : Bytes) : Bytes :=
  Utf8.encode (String.ofList (characters (units order b)))

end Utf16
end Firmware
