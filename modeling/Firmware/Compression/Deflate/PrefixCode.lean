import Firmware.Compression.Bits

/-!
# Prefix codes

A prefix code is given by the length of the code of each symbol. Codes of one length are
consecutive numbers in the order of their symbols, and the first of a length follows the last of the
length before, so the lengths determine the codes. A code is read with its high bit first.
-/

namespace Firmware
namespace Compression
namespace Deflate

structure PrefixCode where
  /-- The number of codes of each length, from one on. -/
  counts : List Nat
  symbols : Array Nat
  /-- The fewest bits that have to be left for a symbol to be read. -/
  reserve : Nat
deriving Repr

namespace PrefixCode

def longest : Nat := 15

def codeLengths : List Nat := (List.range longest).map (· + 1)

/-- The share of all codes of the longest length that codes of the given lengths take up. -/
def weight (lengths : List Nat) : Nat :=
  codeLengths.foldl (fun sum k => sum + lengths.count k <<< (longest - k)) 0

/-- Whether symbols with codes of the given lengths can be told apart and leave no code over. A
code without symbols, or with one of length one, is taken as well. -/
def isComplete (lengths : List Nat) : Bool :=
  let used := lengths.filter (· != 0)
  used.isEmpty || used == [1] || weight lengths == 1 <<< longest

def symbolsOf (lengths : List Nat) (k : Nat) : List Nat :=
  (lengths.zipIdx.filter (·.1 == k)).map (·.2)

/-- The code with the given lengths; zero means that a symbol has none. -/
def ofLengths? (lengths : List Nat) : Option PrefixCode :=
  if isComplete lengths then
    some
      { counts := codeLengths.map fun k => lengths.count k
        symbols := (codeLengths.flatMap (symbolsOf lengths)).toArray
        reserve := (codeLengths.find? lengths.contains).getD 0 }
  else none

/-- Looks for a code bit by bit. At each length, `first` is the first code and `index` the number
of symbols with shorter ones. -/
def search (symbols : Array Nat) : List Nat → Nat → Nat → Nat → Bits → Option (Nat × Bits)
  | [], _, _, _, _ => none
  | _ :: _, _, _, _, [] => none
  | count :: counts, code, first, index, bit :: bits =>
    let code := code * 2 + bit.toNat
    if code < first + count then (symbols[index + (code - first)]?).map (·, bits)
    else search symbols counts code ((first + count) * 2) (index + count) bits

/-- The symbol that the bits start with, and the bits behind it. -/
def decode (c : PrefixCode) (bits : Bits) : Option (Nat × Bits) :=
  if (bits.drop (c.reserve - 1)).isEmpty then none else search c.symbols c.counts 0 0 0 bits

/-- A code that is found takes at least one bit. -/
theorem length_of_search {symbols : Array Nat} {counts : List Nat} {code first index value : Nat}
    {bits rest : Bits} (h : search symbols counts code first index bits = some (value, rest)) :
    rest.length < bits.length := by
  fun_induction search symbols counts code first index bits with
  | case1 => simp at h
  | case2 => simp at h
  | case3 code first index count counts bit bits code' hc =>
    obtain ⟨_, _, he⟩ := Option.map_eq_some_iff.1 h
    simp_all
  | case4 code first index count counts bit bits code' hc ih =>
    have := ih h
    simp only [List.length_cons]
    omega

/-- A symbol takes at least one bit. -/
theorem length_of_decode {c : PrefixCode} {value : Nat} {bits rest : Bits}
    (h : c.decode bits = some (value, rest)) : rest.length < bits.length := by
  unfold decode at h
  split at h
  · simp at h
  · exact length_of_search h

end PrefixCode
end Deflate
end Compression
end Firmware
