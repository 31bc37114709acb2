import Firmware.Compression.Bits

/-!
# Bits from the end

Some parts of compressed data are read from their end: the last byte first, and in a byte the high
bit first. The highest bit that is set in the last byte marks the end and is not part of the data.
Numbers have their high bit first.
-/

namespace Firmware
namespace Compression
namespace Zstandard

def highFirst (x : UInt8) : Bits := ((List.range 8).map x.toNat.testBit).reverse

/-- The bits of bytes that end with `last`, from the end; none if there is no mark. -/
def backward? (earlier : Bytes) (last : UInt8) : Option Bits :=
  match (highFirst last).dropWhile (!·) with
  | [] => none
  | _ :: marked => some (marked ++ earlier.reverse.flatMap highFirst)

/-- The number in the first `n` bits, the high bit first, and the bits behind it. -/
def highNumber? (n : Nat) (bits : Bits) : Option (Nat × Bits) :=
  let digits := bits.take n
  if digits.length < n then none
  else some (digits.foldl (fun value bit => 2 * value + bit.toNat) 0, bits.drop n)

end Zstandard
end Compression
end Firmware
