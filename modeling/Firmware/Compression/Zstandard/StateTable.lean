import Firmware.Compression.Zstandard.BackwardBits

/-!
# State tables

A state table turns bits into symbols. Each state stands for a symbol; the bits that follow choose
among the states that can come next. A symbol has as many states as its share of the table says, so
a frequent symbol takes few bits. The table is fixed by the shares of its symbols: a share is a
number of states, or says that the symbol is rare and has one state at the end of the table.
-/

namespace Firmware
namespace Compression
namespace Zstandard

structure State where
  symbol : Nat
  /-- The number of bits that choose the next state. -/
  width : Nat
  /-- The first of the states that can come next. -/
  base : Nat
deriving DecidableEq, Repr

/-- A table of states, a power of two of them. -/
structure StateTable where
  /-- The number of bits that choose the first state. -/
  width : Nat
  states : Array State
deriving DecidableEq, Repr

namespace StateTable

/-! ## Building a table -/

/-- The share of a rare symbol. -/
def rare : Int := -1

def symbolsWhere (shares : List Int) (p : Int → Bool) : List (Nat × Int) :=
  (shares.zipIdx.filter (p ·.1)).map fun (share, symbol) => (symbol, share)

def places (size : Nat) : List Nat :=
  (List.range size).map fun k => k * (size / 2 + size / 8 + 3) % size

/-- The places of a table and their symbols. Rare symbols stand at the end, the first one last. -/
def placed (size : Nat) (shares : List Int) : List (Nat × Nat) :=
  let rares := (symbolsWhere shares (· == rare)).map (·.1)
  let common := (symbolsWhere shares (0 < ·)).flatMap fun (symbol, share) =>
    List.replicate share.toNat symbol
  rares.zipIdx.map (fun (symbol, k) => (size - 1 - k, symbol)) ++
    ((places size).filter (· < size - rares.length)).zip common

/-- The symbols of a table by place. -/
def layout (size : Nat) (shares : List Int) : Array Nat :=
  (placed size shares).foldl (fun table (place, symbol) => table.setIfInBounds place symbol)
    (Array.replicate size 0)

/-- The state of a symbol with the given number, of which a symbol has as many as its share, from
the share on. -/
def stateOf (width symbol number : Nat) : State :=
  let bits := width - number.log2
  { symbol, width := bits, base := number <<< bits - 1 <<< width }

def ofShares (width : Nat) (shares : List Int) : StateTable :=
  let numbers := (shares.map fun share => if share == rare then 1 else share.toNat).toArray
  let (states, _) := (layout (1 <<< width) shares).foldl
    (fun (states, numbers) symbol =>
      let number := numbers.getD symbol 0
      (states.push (stateOf width symbol number), numbers.setIfInBounds symbol (number + 1)))
    ((#[] : Array State), numbers)
  { width, states }

def single (symbol : Nat) : StateTable := { width := 0, states := #[⟨symbol, 0, 0⟩] }

/-! ## Reading a table -/

/-- Whether fewer bits are left than have to be for a share to be read. -/
def isShort (bits : Bits) : Bool := (bits.drop 15).isEmpty

/-- A number between zero and `remaining`. Numbers that are small enough take a bit less. -/
def readShare? (remaining : Nat) (bits : Bits) : Option (Nat × Bits) := do
  let width := remaining.log2
  let small := 1 <<< (width + 1) - 1 - remaining
  let (value, rest) ← Bits.number? width bits
  if value < small then some (value, rest)
  else
    let (value, rest) ← Bits.number? (width + 1) bits
    some (if value < 1 <<< width then value else value - small, rest)

/-- How many more symbols have no share: pairs of bits that add up to the first below three. -/
def readGap? : Nat → Bits → Option (Nat × Bits)
  | gap, true :: true :: rest => if isShort rest then none else readGap? (gap + 3) rest
  | gap, bits => (Bits.number? 2 bits).map fun (more, rest) => (gap + more, rest)

/-- Reads the shares of at most `limit` symbols behind those that are done, where `remaining` is
one more than the number of states that are left. -/
def readShares? (limit remaining : Nat) (done : Array Int) (bits : Bits) :
    Option (List Int × Bits) :=
  if remaining ≤ 1 || limit ≤ done.size then
    if remaining == 1 then some (done.toList, bits) else none
  else if isShort bits then none
  else
    match readShare? remaining bits with
    | none => none
    | some (0, rest) => readShares? limit (remaining - 1) (done.push rare) rest
    | some (1, rest) =>
      if limit ≤ done.size + 1 then none
      else if isShort rest then none
      else
        match readGap? 0 rest with
        | none => none
        | some (gap, rest) =>
          if limit ≤ done.size + 1 + gap then none
          else readShares? limit remaining (done ++ Array.replicate (1 + gap) 0) rest
    | some (share + 1, rest) =>
      readShares? limit (remaining - share) (done.push share) rest
termination_by limit - done.size
decreasing_by all_goals simp_all; omega

/-- Reads a table of at most `limit` symbols and the given width, and gives the bytes behind it. -/
def read? (limit widest : Nat) (data : Bytes) : Option (StateTable × Bytes) := do
  let bits := Bits.ofBytes data
  if isShort bits then none
  else
    let (value, bits) ← Bits.number? 4 bits
    let width := value + 5
    if widest < width then none
    else
      let (shares, bits) ← readShares? limit (1 <<< width + 1) #[] bits
      some (ofShares width shares, data.drop (data.length - bits.length / 8))

/-! ## Using a table -/

/-- The first state, and the bits behind its number. -/
def start? (t : StateTable) (bits : Bits) : Option (State × Bits) := do
  let (number, rest) ← highNumber? t.width bits
  return (← t.states[number]?, rest)

def next? (t : StateTable) (s : State) (bits : Bits) : Option (State × Bits) := do
  let (choice, rest) ← highNumber? s.width bits
  return (← t.states[s.base + choice]?, rest)

end StateTable
end Zstandard
end Compression
end Firmware
