import Firmware.Failure
import Firmware.Text.Blank

/-!
# Blocks

A block of 512 bytes describes itself: magic words at both ends, flags, the address and size of
its payload, its number and the number of blocks, and one word that holds the size of the file or
the family of the device. The name of a file stands behind the payload.
-/

namespace Firmware
namespace Uf2

def magicStart0 : UInt32 := 0x0A324655

def magicStart1 : UInt32 := 0x9E5D5157

def magicEnd : UInt32 := 0x0AB16F30

def flagNoFlash : UInt32 := 0x00000001

def flagFile : UInt32 := 0x00001000

def flagFamily : UInt32 := 0x00002000

def blockSize : Nat := 512

def payloadSize : Nat := 256

def payloadOffset : Nat := 32

def largestPayload : Nat := 476

/-- The value of payload bytes that were never written. -/
def eraseValue : UInt8 := 0xff

structure Block where
  flags : UInt32
  address : UInt32
  payload : UInt32
  number : UInt32
  total : UInt32
  fileSize : UInt32
  family : UInt32
  fileName : Bytes
  data : Bytes
deriving DecidableEq, Repr

namespace Block

def covers (b : Block) (address : UInt32) : Bool :=
  b.address ≤ address && address < b.address + b.payload

/-- Reads the fields of a block whose magic words are in place. -/
def ofBytes (b : Bytes) : Block :=
  let flags := b.word32At 8
  let stated := b.word32At 16
  let payload := if largestPayload < stated.toNat then payloadSize.toUInt32 else stated
  let isFile := flags &&& flagFile != 0
  { flags
    address := b.word32At 12
    payload
    number := b.word32At 20
    total := b.word32At 24
    fileSize := if isFile then b.word32At 28 else 0
    family := if flags &&& flagFamily != 0 then b.word32At 28 else 0
    fileName :=
      if isFile then (b.drop (payloadOffset + payload.toNat)).takeWhile (· != 0) else []
    data := (b.drop payloadOffset).take payload.toNat }

/-- Reads a block; none when its size or a magic word is wrong. -/
def parse? (b : Bytes) : Option Block :=
  if b.length == blockSize && b.word32At 0 == magicStart0 && b.word32At 4 == magicStart1 &&
      b.word32At (blockSize - 4) == magicEnd then
    some (ofBytes b)
  else none

end Block

def parse (file : Bytes) : List Block := (Bytes.rows blockSize file).filterMap Block.parse?

/-! ## Flattening -/

/-- An image under construction: its pieces, last first, where it starts and where it ends. -/
structure Flat where
  pieces : List Bytes := []
  start : UInt32 := 0
  stop : Option Int := none

def largestGap : Int := 1024 * 1024

/-- Adds a block behind what is there. One that goes backwards, is misaligned or leaves too large a
gap is skipped. -/
def Flat.add (f : Flat) (b : Block) : Flat :=
  let address : Int := b.address.toNat
  let (start, stop) := match f.stop with
    | none => (b.address, address)
    | some stop => (f.start, stop)
  let gap := address - stop
  if gap < 0 || gap % 4 != 0 || largestGap < gap then { f with start, stop := some stop }
  else
    { pieces := b.data :: List.replicate gap.toNat 0 :: f.pieces
      start
      stop := some (address + (b.payload.toNat : Int)) }

/-- A contiguous image of a file and its address. The first block that ends above `endAddress`,
when that is not zero, ends the image. None when nothing was read. -/
def flatten (file : Bytes) (endAddress : UInt32) : Option (Bytes × UInt32) :=
  let within (b : Block) : Bool :=
    endAddress == 0 || b.address + payloadSize.toUInt32 ≤ endAddress
  let f := ((parse file).takeWhile within).foldl Flat.add {}
  let data := f.pieces.reverse.flatten
  if data.isEmpty then none else some (data, f.start)

/-! ## Reading back -/

/-- The bytes from `address` on, added in front of the reversed bytes `acc`. The block that held
the last byte is asked first, then the blocks in order; what no block covers is zero. -/
def readOnto (blocks : List Block) : Option Block → UInt32 → Bytes → Nat → Bytes
  | _, _, acc, 0 => acc.reverse
  | current, address, acc, n + 1 =>
    let current := match current with
      | some b => if b.covers address then some b else blocks.find? (·.covers address)
      | none => blocks.find? (·.covers address)
    let byte := match current with
      | some b => b.data.getD (address - b.address).toNat 0
      | none => 0
    readOnto blocks current (address + 1) (byte :: acc) n

/-- The `n` bytes from `address` on, if a buffer can hold so many. -/
def read (blocks : List Block) (address : UInt32) (n : Int) : Except Failure Bytes :=
  if n < 0 || (largestBuffer : Int) < n then .error .outOfRange
  else .ok (readOnto blocks none address [] n.toNat)

/-! ## Families -/

def parseFamily (text : String) : Except Failure UInt32 :=
  let text := Text.trim text
  if text.isEmpty then .ok 0
  else
    match Numeral.read .marked 32 (Utf8.encode text) with
    | .ok n => .ok n.toUInt32
    | .error f => .error (.badFamily text f)

end Uf2
end Firmware
