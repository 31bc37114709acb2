import Firmware.Bytes

/-!
# Bits of a stream

Compressed data is a row of bits: the bytes follow each other, and within a byte the low bit comes
first. A number is stored with its low bit first as well.
-/

namespace Firmware
namespace Compression

abbrev Bits := List Bool

namespace Bits

def ofBytes (b : Bytes) : Bits := b.flatMap fun x => (List.range 8).map x.toNat.testBit

def number? : Nat → Bits → Option (Nat × Bits)
  | 0, bits => some (0, bits)
  | _ + 1, [] => none
  | n + 1, bit :: bits =>
    match number? n bits with
    | some (value, rest) => some (bit.toNat + 2 * value, rest)
    | none => none

/-- Up to `n` whole bytes, and the bits behind them. -/
def bytes : Nat → Bits → Bytes × Bits
  | 0, bits => ([], bits)
  | n + 1, bits =>
    match number? 8 bits with
    | some (value, rest) =>
      let (more, rest) := bytes n rest
      (value.toUInt8 :: more, rest)
    | none => ([], bits)

/-- The bits from the next byte on, in a row that ends with a whole byte. -/
def align (bits : Bits) : Bits := bits.drop (bits.length % 8)

theorem length_of_number? {n value : Nat} {bits rest : Bits}
    (h : number? n bits = some (value, rest)) : bits.length = rest.length + n := by
  induction n generalizing bits value rest with
  | zero => simp_all [number?]
  | succ n ih =>
    match bits with
    | [] => simp [number?] at h
    | bit :: bits =>
      simp only [number?] at h
      split at h
      · rename_i v r hr
        have := ih hr
        simp_all
        omega
      · simp at h

theorem length_bytes_le (n : Nat) (bits : Bits) : (bytes n bits).2.length ≤ bits.length := by
  induction n generalizing bits with
  | zero => simp [bytes]
  | succ n ih =>
    simp only [bytes]
    split
    · rename_i value rest h
      have h₁ := length_of_number? h
      have h₂ := ih rest
      simp only
      omega
    · simp

theorem length_align_le (bits : Bits) : (align bits).length ≤ bits.length := by
  simp [align]

end Bits
end Compression
end Firmware
