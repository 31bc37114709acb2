import Firmware.Program.Basic
import Firmware.Sha256
import Firmware.Text.Lines

/-!
# Source of a program

The assembly source carries a hash of itself in a line that is reserved for it, and the sources a
program was made from can be packed into a blob that is kept with the image.
-/

namespace Firmware
namespace Source

/-- What a line that is reserved for the hash ends with. -/
def hashMark : List Char := "@SRCHASH@".toList

def isReserved (line : List Char) : Bool := hashMark.isSuffixOf line

/-- Replaces the first reserved line; the first line of a text and one that no line end closes are
not looked at. -/
def replaceReserved (line : List Char) : List (List Char) → List (List Char)
  | first :: second :: third :: rest =>
    if isReserved second then first :: line :: third :: rest
    else first :: replaceReserved line (second :: third :: rest)
  | lines => lines

def hash (text : String) : String := Hexadecimal.lower (Sha256.digest (Utf8.encode text))

def withHash (text : String) : String × String :=
  let digits := hash text
  let line := "    .hex ".toList ++ (digits.toList.take 16).map Char.toUpper ++
    " ; program hash".toList
  let lines := replaceReserved line (Text.lines text.toList)
  (String.ofList (Text.joinLines lines), digits)

/-! ## Packed source -/

/-- The largest packed source that is kept inside of the program. -/
def largestInFlash : Nat := 40000

def packedMagic : Bytes := [0x41, 0x14, 0x0E, 0x2F, 0xB8, 0x2F, 0xA2, 0xBB]

/-- Packs a description and compressed sources: magic, the two lengths, four zeros, the bytes of
both, and a zero if their number is odd. -/
def pack (description : String) (blob : Bytes) : Bytes :=
  let m := Utf8.encode description
  let packed := packedMagic ++ Bytes.ofWord16 m.length.toUInt16 ++
    Bytes.ofWord16 blob.length.toUInt16 ++ [0, 0, 0, 0] ++ m ++ blob
  if packed.length % 2 == 1 then packed ++ [0] else packed

def packedAssembly (packed : Bytes) : String :=
  "\n    .balign 16\n_stored_program: .hex " ++ Hexadecimal.lower packed ++ "\n"

end Source
end Firmware
