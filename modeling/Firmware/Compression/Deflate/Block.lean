import Firmware.Compression.Copy
import Firmware.Compression.Deflate.PrefixCode

/-!
# Blocks

Compressed data is cut into blocks. A block is stored as it is, or it is a row of symbols under two
prefix codes: a symbol is a byte, the end of the block, or the length of a copy of what came before,
whose distance follows. The codes are fixed or stand in front of the block.

What a block holds up to a fault counts, so reading gives the bytes so far, and the bits behind the
block only if it came to its end. Reading stops early once there are enough bytes.
-/

namespace Firmware
namespace Compression
namespace Deflate

/-! ## Copies -/

def endOfBlock : Nat := 256

/-- The least length of a copy with a symbol, and the number of bits that add to it. -/
def lengthOf? (symbol : Nat) : Option (Nat × Nat) :=
  if symbol < 265 then some (symbol - 254, 0)
  else if symbol < 285 then
    let extra := (symbol - 261) / 4
    some (((symbol - 261) % 4 + 4) <<< extra + 3, extra)
  else if symbol == 285 then some (258, 0)
  else none

/-- The least distance of a copy with a symbol, and the number of bits that add to it. -/
def distanceOf? (symbol : Nat) : Option (Nat × Nat) :=
  if symbol < 4 then some (symbol + 1, 0)
  else if symbol < 30 then
    let extra := (symbol - 2) / 2
    some ((symbol % 2 + 2) <<< extra + 1, extra)
  else none

/-- The number of a symbol with bits that add to it. -/
def extended? (start : Option (Nat × Nat)) (bits : Bits) : Option (Nat × Bits) :=
  match start with
  | none => none
  | some (least, extra) => (Bits.number? extra bits).map fun (more, rest) => (least + more, rest)

/-- The length and distance of a copy, behind the symbol of its length. -/
def readCopy? (distances : PrefixCode) (symbol : Nat) (bits : Bits) :
    Option (Nat × Nat × Bits) := do
  let (length, bits) ← extended? (lengthOf? symbol) bits
  let (code, bits) ← distances.decode bits
  let (distance, bits) ← extended? (distanceOf? code) bits
  return (length, distance, bits)

/-- Bits that add to a number leave no more than there were. -/
theorem length_of_extended? {start : Option (Nat × Nat)} {value : Nat} {bits rest : Bits}
    (h : extended? start bits = some (value, rest)) : rest.length ≤ bits.length := by
  unfold extended? at h
  split at h
  · simp at h
  · obtain ⟨⟨more, r⟩, hr, he⟩ := Option.map_eq_some_iff.1 h
    have := Bits.length_of_number? hr
    simp only [Prod.mk.injEq] at he
    obtain ⟨_, rfl⟩ := he
    omega

theorem length_of_readCopy? {distances : PrefixCode} {symbol length distance : Nat}
    {bits rest : Bits} (h : readCopy? distances symbol bits = some (length, distance, rest)) :
    rest.length ≤ bits.length := by
  simp only [readCopy?, Option.bind_eq_bind, Option.bind_eq_some_iff] at h
  obtain ⟨⟨_, b₁⟩, h₁, ⟨_, b₂⟩, h₂, ⟨_, b₃⟩, h₃, h⟩ := h
  simp only [Option.pure_def, Option.some.injEq, Prod.mk.injEq] at h
  obtain ⟨_, _, rfl⟩ := h
  have := length_of_extended? h₁
  have := PrefixCode.length_of_decode h₂
  have := length_of_extended? h₃
  simp only at *
  omega

/-! ## Rows of symbols -/

def readSymbols (limit : Nat) (literals distances : PrefixCode) (out : Array UInt8)
    (bits : Bits) : Array UInt8 × Option Bits :=
  if limit ≤ out.size then (out, none)
  else
    match h : literals.decode bits with
    | none => (out, none)
    | some (symbol, rest) =>
      have := PrefixCode.length_of_decode h
      if symbol < endOfBlock then
        readSymbols limit literals distances (out.push symbol.toUInt8) rest
      else if symbol == endOfBlock then (out, some rest)
      else
        match hc : readCopy? distances symbol rest with
        | none => (out, none)
        | some (length, distance, rest') =>
          have := length_of_readCopy? hc
          if out.size < distance then (out, none)
          else readSymbols limit literals distances (copyBack out distance length) rest'
termination_by bits.length

theorem length_readSymbols_le {limit : Nat} {literals distances : PrefixCode}
    {out : Array UInt8} {bits rest : Bits}
    (h : (readSymbols limit literals distances out bits).2 = some rest) :
    rest.length ≤ bits.length := by
  fun_induction readSymbols limit literals distances out bits with
  | case1 => simp at h
  | case2 => simp at h
  | case3 out bits _ symbol rest' hd _ _ ih =>
    have := ih h
    omega
  | case4 out bits _ symbol rest' hd _ _ _ =>
    simp_all
    omega
  | case5 => simp at h
  | case6 => simp at h
  | case7 out bits _ symbol rest' hd _ _ _ length distance rest'' hc _ _ ih =>
    have := ih h
    omega

/-! ## Codes -/

def fixedLengths : List Nat :=
  List.replicate 144 8 ++ List.replicate 112 9 ++ List.replicate 24 7 ++ List.replicate 8 8

def fixedCodes? : Option (PrefixCode × PrefixCode) := do
  let literals ← PrefixCode.ofLengths? fixedLengths
  let distances ← PrefixCode.ofLengths? (List.replicate 32 5)
  return (literals, distances)

/-- The order in which the lengths of the code of lengths are stored. -/
def lengthOrder : List Nat := [16, 17, 18, 0, 8, 7, 9, 6, 10, 5, 11, 4, 12, 3, 13, 2, 14, 1, 15]

/-- Numbers of three bits. -/
def readTriples? : Nat → Bits → Option (List Nat × Bits)
  | 0, bits => some ([], bits)
  | n + 1, bits => do
    let (value, bits) ← Bits.number? 3 bits
    let (rest, bits) ← readTriples? n bits
    return (value :: rest, bits)

def orderLengths (stored : List Nat) : List Nat :=
  (List.range lengthOrder.length).map fun symbol =>
    ((lengthOrder.zip stored).lookup symbol).getD 0

/-- What a symbol above the lengths repeats, how often at least, and the number of bits that add to
it. -/
def repetition? (done : Array Nat) (symbol : Nat) : Option (Nat × Nat × Nat) :=
  if symbol == 16 then done.back?.map (·, 3, 2)
  else if symbol == 17 then some (0, 3, 3)
  else some (0, 11, 7)

def readLengths? (code : PrefixCode) (count : Nat) (done : Array Nat) (bits : Bits) :
    Option (List Nat × Bits) :=
  if count ≤ done.size then some (done.toList, bits)
  else
    match h : code.decode bits with
    | none => none
    | some (symbol, rest) =>
      have := PrefixCode.length_of_decode h
      if symbol < 16 then readLengths? code count (done.push symbol) rest
      else
        match repetition? done symbol with
        | none => none
        | some (value, least, extra) =>
          match hn : Bits.number? extra rest with
          | none => none
          | some (more, rest') =>
            have := Bits.length_of_number? hn
            if count < done.size + least + more then none
            else
              readLengths? code count (done ++ Array.replicate (least + more) value) rest'
termination_by bits.length

/-- Reads the codes that stand in front of a block. A symbol of the first code is read only where
the end of the block could stand. -/
def readCodes? (bits : Bits) : Option (PrefixCode × PrefixCode × Bits) := do
  let (literalCount, bits) ← Bits.number? 5 bits
  let (distanceCount, bits) ← Bits.number? 5 bits
  let (storedCount, bits) ← Bits.number? 4 bits
  if 29 < literalCount || 29 < distanceCount then none
  else
    let (stored, bits) ← readTriples? (storedCount + 4) bits
    let code ← PrefixCode.ofLengths? (orderLengths stored)
    let (lengths, bits) ← readLengths? code (literalCount + distanceCount + 258) #[] bits
    let literals ← PrefixCode.ofLengths? (lengths.take (literalCount + 257))
    let distances ← PrefixCode.ofLengths? (lengths.drop (literalCount + 257))
    let reserve := max literals.reserve (lengths.getD endOfBlock 0)
    return ({ literals with reserve }, distances, bits)

/-! ## Kinds of blocks -/

/-- Reads a block that is stored as it is, from the next byte on: its length, the same inverted,
and its bytes. -/
def readStored (out : Array UInt8) (bits : Bits) : Array UInt8 × Option Bits :=
  match Bits.number? 16 (Bits.align bits) with
  | none => (out, none)
  | some (length, rest) =>
    match Bits.number? 16 rest with
    | none => (out, none)
    | some (inverse, rest) =>
      if length + inverse != 0xFFFF then (out, none)
      else
        let content := Bits.bytes length rest
        (out ++ content.1.toArray,
          if content.1.length < length then none else some content.2)

def readBlock (limit kind : Nat) (out : Array UInt8) (bits : Bits) : Array UInt8 × Option Bits :=
  match kind with
  | 0 => readStored out bits
  | 1 =>
    match fixedCodes? with
    | some (literals, distances) => readSymbols limit literals distances out bits
    | none => (out, none)
  | 2 =>
    match readCodes? bits with
    | some (literals, distances, rest) => readSymbols limit literals distances out rest
    | none => (out, none)
  | _ => (out, none)

end Deflate
end Compression
end Firmware
