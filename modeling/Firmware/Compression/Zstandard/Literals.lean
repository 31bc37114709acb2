import Firmware.Compression.Zstandard.WeightCode

/-!
# Literals

A compressed block starts with its literals, the bytes that are not copies of earlier ones. They are
stored as they are, as one byte that repeats, or under a weight code, which may be that of the block
before. Literals under a code are one stream or four of about the same size.
-/

namespace Firmware
namespace Compression
namespace Zstandard

/-- The most bytes that a block can hold. -/
def largestBlock : Nat := 128 * 1024

/-- The literals of a block, the code to be used again, and the data behind them. -/
structure Literals where
  bytes : Array UInt8
  code? : Option WeightCode
  rest : Bytes
deriving Repr

namespace Literals

/-! ## Literals without a code -/

/-- The size of literals without a code, and the number of bytes that it takes. -/
def plainSize? (format : Nat) (block : Bytes) : Option (Nat × Nat) :=
  let bytes := if format == 1 then 2 else if format == 3 then 3 else 1
  if block.length < bytes then none
  else
    let size := Bytes.number .little bytes block / (if bytes == 1 then 8 else 16)
    if largestBlock < size then none else some (size, bytes)

/-- Reads literals without a code: as they are, or one byte that repeats. -/
def readPlain? (code? : Option WeightCode) (repeats : Bool) (format : Nat) (block : Bytes) :
    Option Literals := do
  let (size, used) ← plainSize? format block
  if repeats then
    let (byte, rest) ← Bytes.split? 1 (block.drop used)
    return ⟨Array.replicate size (byte.headD 0), code?, rest⟩
  else
    let (bytes, rest) ← Bytes.split? size (block.drop used)
    return ⟨bytes.toArray, code?, rest⟩

/-! ## Literals under a code -/

/-- Adds the `n` literals of the stream with the given place. The bits of a code that are looked at
and not needed may lie in the two bytes in front. -/
def readStream? (code : WeightCode) (block : Bytes) (start size n : Nat) (out : Array UInt8) :
    Option (Array UInt8) := do
  let stream := (block.drop (start - 2)).take (size + 2)
  code.decode? n out (← backward? stream.dropLast (← stream.getLast?))

/-- Reads `n` literals from four streams, in front of which stand the sizes of the first three. -/
def readFour? (code : WeightCode) (block : Bytes) (start size n : Nat) : Option (Array UInt8) := do
  let quarter := (n + 3) / 4
  let sizes := block.drop start
  let a := Bytes.number .little 2 sizes
  let b := Bytes.number .little 2 (sizes.drop 2)
  let c := Bytes.number .little 2 (sizes.drop 4)
  if size < 6 || n < 3 * quarter || size - 6 < a + b + c then none
  else
    let start := start + 6
    let out ← readStream? code block start a quarter #[]
    let out ← readStream? code block (start + a) b quarter out
    let out ← readStream? code block (start + a + b) c quarter out
    readStream? code block (start + a + b + c) (size - 6 - (a + b + c)) (n - 3 * quarter) out

/-- Reads literals under a code, their own or that of the block before. -/
def readCoded? (code? : Option WeightCode) (fresh : Bool) (format : Nat) (block : Bytes) :
    Option Literals := do
  let width := if format < 2 then 10 else if format == 2 then 14 else 18
  let start := (4 + 2 * width) / 8
  let header := Bytes.number .little start block / 16
  let n := header % (1 <<< width)
  let stop := start + header >>> width
  if largestBlock < n || block.length < start || block.length < stop then none
  else
    let (code, rest) ← if fresh then WeightCode.read? (block.drop start)
      else code?.map (·, block.drop start)
    let start := block.length - rest.length
    if stop < start then none
    else
      let bytes ← if format == 0 then readStream? code block start (stop - start) n #[]
        else readFour? code block start (stop - start) n
      return ⟨bytes, some code, block.drop stop⟩

/-! ## All kinds -/

/-- Reads the literals of a block, where `code?` is the code of the block before. -/
def read? (code? : Option WeightCode) (block : Bytes) : Option Literals := do
  let header := (← block.head?).toNat
  let format := header / 4 % 4
  match header % 4 with
  | 0 => readPlain? code? false format block
  | 1 => readPlain? code? true format block
  | 2 => readCoded? code? true format block
  | _ => readCoded? code? false format block

end Literals
end Zstandard
end Compression
end Firmware
