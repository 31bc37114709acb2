import Firmware.Compression.Copy
import Firmware.Compression.Zstandard.Literals

/-!
# Sequences

Behind its literals, a compressed block says how they are mixed with copies. A sequence is a number
of literals, and the length and the distance of a copy behind them. The three stand as symbols under
state tables of their own; a symbol is the least of a range of numbers, and bits that follow say
which of them is meant. A distance can also be one of the three that were used last.
-/

namespace Firmware
namespace Compression
namespace Zstandard

/-! ## The three kinds of numbers -/

/-- What is fixed of the numbers of one kind. -/
structure Alphabet where
  last : Nat
  /-- The most bits that a table of states may take. -/
  widest : Nat
  /-- The width of the table that is used where none is stored. -/
  width : Nat
  /-- The shares of the table that is used where none is stored. -/
  shares : List Int
  /-- The least number of a symbol. -/
  least : Nat → Nat
  /-- The number of bits that add to it. -/
  extra : Nat → Nat

/-- The bits that add to the numbers of literals from symbol 16 on. -/
def literalBits : List Nat := [1, 1, 1, 1, 2, 2, 3, 3, 4, 6, 7, 8, 9, 10, 11, 12, 13, 14, 15, 16]

/-- The bits that add to the lengths of copies from symbol 32 on. -/
def copyBits : List Nat :=
  [1, 1, 1, 1, 2, 2, 3, 3, 4, 4, 5, 7, 8, 9, 10, 11, 12, 13, 14, 15, 16]

def literalLeast : List Nat :=
  [16, 18, 20, 22, 24, 28, 32, 40, 48, 64, 128, 256, 512, 1024, 2048, 4096, 8192, 16384, 32768,
   65536]

def copyLeast : List Nat :=
  [35, 37, 39, 41, 43, 47, 51, 59, 67, 83, 99, 131, 259, 515, 1027, 2051, 4099, 8195, 16387, 32771,
   65539]

def literalCounts : Alphabet where
  last := 35
  widest := 9
  width := 6
  shares := [4, 3, 2, 2, 2, 2, 2, 2, 2, 2, 2, 2, 2, 1, 1, 1, 2, 2, 2, 2, 2, 2, 2, 2, 2, 3, 2] ++
    List.replicate 5 1 ++ List.replicate 4 StateTable.rare
  least symbol := if symbol < 16 then symbol else literalLeast.getD (symbol - 16) 0
  extra symbol := if symbol < 16 then 0 else literalBits.getD (symbol - 16) 0

def copyLengths : Alphabet where
  last := 52
  widest := 9
  width := 6
  shares := [1, 4, 3, 2, 2, 2, 2, 2, 2] ++ List.replicate 37 1 ++
    List.replicate 7 StateTable.rare
  least symbol := if symbol < 32 then symbol + 3 else copyLeast.getD (symbol - 32) 0
  extra symbol := if symbol < 32 then 0 else copyBits.getD (symbol - 32) 0

/-- Distances of copies. The first two symbols stand for distances that were used before. -/
def distances : Alphabet where
  last := 31
  widest := 8
  width := 5
  shares := List.replicate 6 1 ++ List.replicate 3 2 ++ List.replicate 15 1 ++
    List.replicate 5 StateTable.rare
  least symbol := if symbol < 2 then 1 <<< symbol else 1 <<< symbol - 3
  extra symbol := symbol

namespace Alphabet

/-- The table in front of the sequences of a block: the fixed one, one symbol, one that is stored,
or that of the block before. Also gives the data behind it. -/
def table? (a : Alphabet) (mode : Nat) (previous? : Option StateTable) (data : Bytes) :
    Option (StateTable × Bytes) :=
  match mode, data with
  | 0, _ => some (.ofShares a.width a.shares, data)
  | 1, [] => none
  | 1, symbol :: rest =>
    if a.last < symbol.toNat then none else some (.single symbol.toNat, rest)
  | 2, _ => StateTable.read? (a.last + 1) a.widest data
  | _, _ => previous?.map (·, data)

def number? (a : Alphabet) (symbol : Nat) (bits : Bits) : Option (Nat × Bits) :=
  (highNumber? (a.extra symbol) bits).map fun (more, rest) => (a.least symbol + more, rest)

end Alphabet

/-! ## What blocks share -/

/-- The distances that were used last. -/
structure Recent where
  first : Nat := 1
  second : Nat := 4
  third : Nat := 8
deriving DecidableEq, Repr

/-- The distance of a copy behind `literals` literals, and the distances used last from then on. A
distance that is used again is counted from the second one if there are no literals. -/
def Recent.use (r : Recent) (symbol number literals : Nat) : Nat × Recent :=
  if 1 < symbol then (number, ⟨number, r.first, r.second⟩)
  else
    match if literals == 0 then number + 1 else number with
    | 1 => (r.first, r)
    | 2 => (r.second, ⟨r.second, r.first, r.third⟩)
    | 3 => (r.third, ⟨r.third, r.first, r.second⟩)
    | _ => (r.first - 1, ⟨r.first - 1, r.first, r.second⟩)

/-- What a block leaves to the next one of its frame. -/
structure Memory where
  recent : Recent := {}
  code? : Option WeightCode := none
  literals? : Option StateTable := none
  distances? : Option StateTable := none
  copies? : Option StateTable := none
deriving Repr

/-! ## The tables -/

structure Tables where
  literals : StateTable
  distances : StateTable
  copies : StateTable
deriving Repr

/-- The number of sequences, and the data behind it. -/
def sequenceCount? : Bytes → Option (Nat × Bytes)
  | [] => none
  | a :: rest =>
    if a < 128 then some (a.toNat, rest)
    else
      match rest with
      | [] => none
      | b :: rest =>
        if a < 255 then some ((a.toNat - 128) * 256 + b.toNat, rest)
        else
          match rest with
          | [] => none
          | c :: rest => some (b.toNat + c.toNat * 256 + 0x7F00, rest)

/-- Reads the tables of a block, and gives the data behind them. -/
def Memory.tables? (m : Memory) (data : Bytes) : Option (Tables × Bytes) :=
  match data with
  | [] => none
  | modes :: rest =>
    if modes &&& 3 != 0 then none
    else do
      let modes := modes.toNat
      let (literals, rest) ← literalCounts.table? (modes / 64) m.literals? rest
      let (distances, rest) ← Zstandard.distances.table? (modes / 16 % 4) m.distances? rest
      let (copies, rest) ← copyLengths.table? (modes / 4 % 4) m.copies? rest
      return (⟨literals, distances, copies⟩, rest)

/-! ## Mixing literals and copies -/

/-- A block while its sequences are read. -/
structure Mixing where
  literals : Array UInt8
  /-- The number of literals that are done. -/
  used : Nat := 0
  /-- What came before the block and what is done of it. -/
  out : Array UInt8
  recent : Recent
  literal : State
  distance : State
  copy : State
  bits : Bits

namespace Mixing

/-- The next states, in the order in which their bits stand. -/
def advance? (t : Tables) (m : Mixing) : Option Mixing := do
  let (literal, bits) ← t.literals.next? m.literal m.bits
  let (copy, bits) ← t.copies.next? m.copy bits
  let (distance, bits) ← t.distances.next? m.distance bits
  return { m with literal, copy, distance, bits }

/-- Reads one sequence. The block starts at `start` and may reach `reach` bytes back from there. -/
def sequence? (start reach : Nat) (m : Mixing) : Option Mixing := do
  if largestBlock < m.out.size - start + (m.literals.size - m.used) then none
  else
    let (number, bits) ← distances.number? m.distance.symbol m.bits
    let (length, bits) ← copyLengths.number? m.copy.symbol bits
    let (count, bits) ← literalCounts.number? m.literal.symbol bits
    let (distance, recent) := m.recent.use m.distance.symbol number count
    let used := m.used + count
    let out := m.out ++ m.literals.extract m.used used
    if m.literals.size < used || distance == 0 || out.size - start + reach < distance then none
    else some { m with used, out := copyBack out distance length, recent, bits }

def sequences? (t : Tables) (start reach : Nat) : Nat → Mixing → Option Mixing
  | 0, m => some m
  | 1, m => m.sequence? start reach
  | n + 2, m =>
    match (m.sequence? start reach).bind (advance? t) with
    | none => none
    | some next => sequences? t start reach (n + 1) next

end Mixing

/-! ## Compressed blocks -/

def Memory.keep (m : Memory) (t : Tables) : Memory :=
  { m with
    literals? := some t.literals
    distances? := some t.distances
    copies? := some t.copies }

/-- Adds literals that are mixed with copies. The data behind the tables ends with the last byte of
the block. -/
def mix? (m : Memory) (t : Tables) (reach count : Nat) (literals out : Array UInt8)
    (data : Bytes) (last : UInt8) : Option (Memory × Array UInt8) := do
  let bits ← backward? data.dropLast last
  let (literal, bits) ← t.literals.start? bits
  let (distance, bits) ← t.distances.start? bits
  let (copy, bits) ← t.copies.start? bits
  let start : Mixing := { literals, out, recent := m.recent, literal, distance, copy, bits }
  let done ← start.sequences? t out.size reach count
  if done.bits.length % 8 != 0 then none
  else
    some ({ m with recent := done.recent },
      done.out ++ done.literals.extract done.used done.literals.size)

/-- Adds the contents of a compressed block, which may reach `reach` bytes back. Also gives what the
block leaves to the next one. Only a block whose number of sequences is the byte zero has no tables;
a longer form of the number zero is followed by tables. -/
def readCompressed? (m : Memory) (reach : Nat) (out : Array UInt8) (block : Bytes) :
    Option (Memory × Array UInt8) := do
  let literals ← Literals.read? m.code? block
  let m := { m with code? := literals.code? }
  if literals.rest == [0] then some (m, out ++ literals.bytes)
  else if literals.rest.head? == some 0 then none
  else
    let (count, rest) ← sequenceCount? literals.rest
    let (t, rest) ← m.tables? rest
    if 0 < count then mix? (m.keep t) t reach count literals.bytes out rest (← block.getLast?)
    else if rest.isEmpty then some (m.keep t, out ++ literals.bytes)
    else none

end Zstandard
end Compression
end Firmware
