import Firmware.Compression.Zstandard.StateTable

/-!
# Weight codes

Literal bytes are stored under a code in which a byte with a weight has a share of all codes that
doubles with each step of the weight; weight zero means that a byte does not occur. The weights fill
the code, so the last one is not stored: it is what is missing. The weights themselves stand as
numbers of four bits or under a state table, from which two rows of states are read in turn.
-/

namespace Firmware
namespace Compression
namespace Zstandard

structure WeightCode where
  /-- The number of bits that are looked at. -/
  width : Nat
  /-- The byte and the length of its code, for all that those bits can be. -/
  entries : Array (UInt8 × Nat)
deriving DecidableEq, Repr

namespace WeightCode

/-! ## From weights to codes -/

def largestWeight : Nat := 12

/-- The most bits that a code can have. -/
def widest : Nat := 11

def share (weight : Nat) : Nat := if weight == 0 then 0 else 1 <<< (weight - 1)

/-- The weights with the one that is not stored, and the width of their code. -/
def complete? (weights : List Nat) : Option (List Nat × Nat) :=
  let sum := weights.foldl (fun sum weight => sum + share weight) 0
  let width := sum.log2 + 1
  let left := 1 <<< width - sum
  let all := weights ++ [left.log2 + 1]
  if weights.any (largestWeight < ·) || sum == 0 || widest < width || 1 <<< left.log2 != left ||
      256 ≤ weights.length || all.count 1 < 2 || all.count 1 % 2 != 0 then
    none
  else some (all, width)

def entriesOf (weights : List Nat) (width weight : Nat) : List (UInt8 × Nat) :=
  (weights.zipIdx.filter (·.1 == weight)).flatMap fun (_, symbol) =>
    List.replicate (share weight) (symbol.toUInt8, width + 1 - weight)

/-- The code with the given weights, of which the last one is not stored. -/
def ofWeights? (weights : List Nat) : Option WeightCode := do
  let (all, width) ← complete? weights
  let entries := ((List.range width).map (· + 1)).flatMap (entriesOf all width)
  return { width, entries := entries.toArray }

/-! ## Reading a code -/

/-- Reads weights from two rows of states in turn. The bits end where the next state cannot be read;
the states that were reached count. -/
def alternate? (t : StateTable) (weights : Array Nat) (turn other : State) (bits : Bits) :
    Option (List Nat) :=
  match t.next? turn bits with
  | none =>
    if 254 ≤ weights.size then none
    else some ((weights.push turn.symbol).push other.symbol).toList
  | some (next, rest) =>
    if 255 ≤ weights.size then none
    else alternate? t (weights.push turn.symbol) other next rest
termination_by 255 - weights.size
decreasing_by simp_all; omega

/-- Reads weights under a state table, which take up the first `n` bytes. -/
def readPacked? (n : Nat) (data : Bytes) : Option (List Nat) := do
  let (t, rest) ← StateTable.read? 256 6 data
  let (front, _) ← Bytes.split? n data
  let bits ← backward? (front.dropLast.drop (data.length - rest.length)) (← front.getLast?)
  let (turn, bits) ← t.start? bits
  let (other, bits) ← t.start? bits
  alternate? t #[] turn other bits

/-- Reads `count` weights of four bits, high bits first. They may not end the data. -/
def readPlain? (count : Nat) (data : Bytes) : Option (List Nat) :=
  if data.length ≤ (count + 1) / 2 then none
  else some (((data.take ((count + 1) / 2)).flatMap fun b =>
    [b.toNat / 16, b.toNat % 16]).take count)

def read? : Bytes → Option (WeightCode × Bytes)
  | [] => none
  | size :: data =>
    if size < 128 then do
      let code ← ofWeights? (← readPacked? size.toNat data)
      return (code, data.drop size.toNat)
    else do
      let count := size.toNat - 127
      let code ← ofWeights? (← readPlain? count data)
      return (code, data.drop ((count + 1) / 2))

/-! ## Using a code -/

/-- Adds `n` bytes. As many bits as are looked at have to be left for each of them. -/
def decode? (c : WeightCode) : Nat → Array UInt8 → Bits → Option (Array UInt8)
  | 0, out, _ => some out
  | n + 1, out, bits =>
    match highNumber? c.width bits with
    | none => none
    | some (index, _) =>
      match c.entries[index]? with
      | none => none
      | some (symbol, length) => decode? c n (out.push symbol) (bits.drop length)

end WeightCode
end Zstandard
end Compression
end Firmware
