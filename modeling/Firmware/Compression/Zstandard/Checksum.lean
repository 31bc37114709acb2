import Firmware.Bytes

/-!
# Checksums of frames

The checksum behind a frame is a 64-bit hash of its contents, of which the low half is stored. Rows
of 32 bytes go through four lanes of 8 bytes; the lanes are joined, and what is left of the contents
is mixed in by words of 8 bytes, 4 bytes and single bytes.
-/

namespace Firmware
namespace Compression
namespace Zstandard
namespace Checksum

/-- The first of the constants of the hash, which are primes. -/
def prime₁ : UInt64 := 0x9E3779B185EBCA87

def prime₂ : UInt64 := 0xC2B2AE3D27D4EB4F

def prime₃ : UInt64 := 0x165667B19E3779F9

def prime₄ : UInt64 := 0x85EBCA77C2B2AE63

def prime₅ : UInt64 := 0x27D4EB2F165667C5

def rotate (x n : UInt64) : UInt64 := (x <<< n) ||| (x >>> (64 - n))

def word (n : Nat) (b : Bytes) : UInt64 := (Bytes.number .little n b).toUInt64

/-- Takes a word into a lane. -/
def mix (lane x : UInt64) : UInt64 := rotate (lane + x * prime₂) 31 * prime₁

def lanes : List UInt64 := [prime₁ + prime₂, prime₂, 0, 0 - prime₁]

def mixRow (lanes : List UInt64) (row : Bytes) : List UInt64 :=
  lanes.zipWith mix ((Bytes.rows 8 row).map (word 8))

def joined (lanes : List UInt64) : UInt64 :=
  let sum := (lanes.zipWith rotate [1, 7, 12, 18]).foldl (· + ·) 0
  lanes.foldl (fun h lane => (h ^^^ mix 0 lane) * prime₁ + prime₄) sum

def mixWord (h : UInt64) (b : Bytes) : UInt64 :=
  rotate (h ^^^ mix 0 (word 8 b)) 27 * prime₁ + prime₄

def mixHalf (h : UInt64) (b : Bytes) : UInt64 :=
  rotate (h ^^^ (word 4 b * prime₁)) 23 * prime₂ + prime₃

def mixByte (h : UInt64) (b : UInt8) : UInt64 :=
  rotate (h ^^^ (b.toUInt64 * prime₅)) 11 * prime₁

/-- Mixes in what is left behind the rows. -/
def mixRest (h : UInt64) (b : Bytes) : UInt64 :=
  let words := b.length / 8 * 8
  let halves := b.length / 4 * 4
  let h := (Bytes.rows 8 (b.take words)).foldl mixWord h
  let h := (Bytes.rows 4 ((b.take halves).drop words)).foldl mixHalf h
  (b.drop halves).foldl mixByte h

/-- Spreads all bits over the word. -/
def finish (h : UInt64) : UInt64 :=
  let h := (h ^^^ (h >>> 33)) * prime₂
  let h := (h ^^^ (h >>> 29)) * prime₃
  h ^^^ (h >>> 32)

def hash (b : Bytes) : UInt64 :=
  let whole := b.length / 32 * 32
  let h := if b.length < 32 then prime₅
    else joined ((Bytes.rows 32 (b.take whole)).foldl mixRow lanes)
  finish (mixRest (h + b.length.toUInt64) (b.drop whole))

/-- The four bytes that are stored behind the contents of a frame. -/
def stored (b : Bytes) : Bytes := Bytes.ofWord32 (hash b).toUInt32

end Checksum
end Zstandard
end Compression
end Firmware
