/-!
# Byte strings

Images, records and blocks are lists of bytes. This module holds the words that are stored in
them, in either byte order, and the few operations on positions that every container format
uses: overwriting in place, padding, cutting into rows, and searching.

A word that is read past the end of the bytes is completed with zeros, so the readers are total;
a caller that has to refuse short input tests the length first.
-/

namespace Firmware

abbrev Bytes := List UInt8

/-- Which end of a word is stored first. -/
inductive ByteOrder where
  | little
  | big
deriving DecidableEq, Repr

namespace Bytes

/-! ## Words -/

/-- The two bytes of a 16-bit word, low byte first. -/
def ofWord16 (w : UInt16) : Bytes := [w.toUInt8, (w >>> 8).toUInt8]

/-- The four bytes of a 32-bit word, low byte first. -/
def ofWord32 (w : UInt32) : Bytes :=
  [w.toUInt8, (w >>> 8).toUInt8, (w >>> 16).toUInt8, (w >>> 24).toUInt8]

/-- The 16-bit word at the start, low byte first. -/
def word16 (b : Bytes) : UInt16 :=
  (b.getD 0 0).toUInt16 ||| ((b.getD 1 0).toUInt16 <<< 8)

/-- The 32-bit word at the start, low byte first. -/
def word32 (b : Bytes) : UInt32 :=
  (b.getD 0 0).toUInt32 ||| ((b.getD 1 0).toUInt32 <<< 8) |||
    ((b.getD 2 0).toUInt32 <<< 16) ||| ((b.getD 3 0).toUInt32 <<< 24)

/-- The 32-bit word that starts at offset `k`. -/
def word32At (b : Bytes) (k : Nat) : UInt32 := word32 (b.drop k)

def ofWord32In (order : ByteOrder) (w : UInt32) : Bytes :=
  match order with
  | .little => ofWord32 w
  | .big => (ofWord32 w).reverse

def number (order : ByteOrder) (n : Nat) (b : Bytes) : Nat :=
  let digits : Bytes := match order with
    | .little => (b.take n).reverse
    | .big => b.take n
  digits.foldl (fun acc d => acc * 256 + d.toNat) 0

/-! ## Positions -/

/-- Writes `src` over the bytes from offset `off` on; what does not fit is dropped. -/
def overwrite (b : Bytes) (off : Nat) (src : Bytes) : Bytes :=
  b.take off ++ src.take (b.length - off) ++ b.drop (off + src.length)

def resize (b : Bytes) (n : Nat) (fill : UInt8) : Bytes :=
  b.take n ++ List.replicate (n - b.length) fill

/-- The rows of `n` bytes that make up `b`, the last one possibly shorter, added in front of the
reversed rows `acc`. -/
def rowsOnto (n : Nat) (acc : List Bytes) (b : Bytes) : List Bytes :=
  if n = 0 then acc.reverse
  else
    match b with
    | [] => acc.reverse
    | x :: rest => rowsOnto n ((x :: rest).take n :: acc) ((x :: rest).drop n)
termination_by b.length
decreasing_by simp only [List.length_drop, List.length_cons]; omega

/-- The rows of `n` bytes that make up `b`, the last one possibly shorter. -/
def rows (n : Nat) (b : Bytes) : List Bytes := rowsOnto n [] b

/-- The first `n` bytes and those behind them, if there are that many. -/
def split? (n : Nat) (b : Bytes) : Option (Bytes × Bytes) :=
  let front := b.take n
  if front.length < n then none else some (front, b.drop n)

/-- The offset of the first occurrence of `pattern` at or after position `pos`, where `b` is what
stands from `pos` on. -/
def findFrom (pattern : Bytes) (pos : Nat) : Bytes → Option Nat
  | [] => if pattern.isEmpty then some pos else none
  | x :: rest =>
    if pattern.isPrefixOf (x :: rest) then some pos else findFrom pattern (pos + 1) rest

/-- The offset of the first occurrence of `pattern`. -/
def find? (b pattern : Bytes) : Option Nat := findFrom pattern 0 b

/-! ## Sums -/

def sum (b : Bytes) : UInt8 := b.foldl (· + ·) 0

/-- All bytes combined by exclusive or, starting from `seed`. -/
def xorFrom (seed : UInt8) (b : Bytes) : UInt8 := b.foldl (· ^^^ ·) seed

end Bytes

/-- A program as the 16-bit words an assembler produces. -/
abbrev Words := List UInt16

namespace Words

def toBytes (ws : Words) : Bytes := ws.flatMap Bytes.ofWord16

def pairsOnto (acc : Words) : Bytes → Words
  | [] => acc.reverse
  | [lo] => (lo.toUInt16 :: acc).reverse
  | lo :: hi :: rest => pairsOnto ((lo.toUInt16 ||| (hi.toUInt16 <<< 8)) :: acc) rest

/-- The words stored in `b`; an odd last byte is completed with zero. -/
def ofBytes (b : Bytes) : Words := pairsOnto [] b

end Words

/-! ## Machine arithmetic -/

/-- The least multiple of the power of two `align` that is at least `v`, in 32-bit arithmetic.
An alignment of zero leaves `v` alone. -/
def alignUp (v align : UInt32) : UInt32 :=
  if align == 0 then v else (v + align - 1) &&& ~~~(align - 1)

/-- The signed 64-bit number that is left of `n` in machine arithmetic. -/
def wrap64 (n : Int) : Int := n.bmod 0x10000000000000000

def largestBuffer : Nat := 0x1000000000000

/-- Shifts right by any number of places; all bits are gone after 32 of them. -/
def shiftRight32 (v : UInt32) (places : Nat) : UInt32 :=
  if places < 32 then v >>> places.toUInt32 else 0

/-- Shifts left by any number of places; all bits are gone after 32 of them. -/
def shiftLeft32 (v : UInt32) (places : Nat) : UInt32 :=
  if places < 32 then v <<< places.toUInt32 else 0

end Firmware
