import Firmware.Compression.Deflate.Block

/-!
# Streams

A stream is a row of blocks, of which one says that it is the last. Around it stand a header of two
bytes and a checksum; the header may ask for a dictionary, which is taken to be empty. The checksum
is not looked at, since what is wanted of a stream are its first bytes.
-/

namespace Firmware
namespace Compression
namespace Deflate

theorem length_readStored_le {out : Array UInt8} {bits rest : Bits}
    (h : (readStored out bits).2 = some rest) : rest.length ≤ bits.length := by
  unfold readStored at h
  split at h
  · simp at h
  · rename_i length r₁ h₁
    split at h
    · simp at h
    · rename_i inverse r₂ h₂
      split at h
      · simp at h
      · have ha := Bits.length_align_le bits
        have hb := Bits.length_bytes_le length r₂
        have := Bits.length_of_number? h₁
        have := Bits.length_of_number? h₂
        simp only [Option.ite_none_left_eq_some, Option.some.injEq] at h
        obtain ⟨_, rfl⟩ := h
        omega

/-- Numbers of three bits leave no more bits than there were. -/
theorem length_of_readTriples? {n : Nat} {values : List Nat} {bits rest : Bits}
    (h : readTriples? n bits = some (values, rest)) : rest.length ≤ bits.length := by
  induction n generalizing bits values rest with
  | zero => simp_all [readTriples?]
  | succ n ih =>
    simp only [readTriples?, Option.bind_eq_bind, Option.bind_eq_some_iff] at h
    obtain ⟨⟨_, b₁⟩, h₁, ⟨_, b₂⟩, h₂, h⟩ := h
    simp only [Option.pure_def, Option.some.injEq, Prod.mk.injEq] at h
    obtain ⟨_, rfl⟩ := h
    have := Bits.length_of_number? h₁
    have := ih h₂
    simp only at *
    omega

theorem length_of_readLengths? {code : PrefixCode} {count : Nat} {done : Array Nat}
    {lengths : List Nat} {bits rest : Bits}
    (h : readLengths? code count done bits = some (lengths, rest)) :
    rest.length ≤ bits.length := by
  fun_induction readLengths? code count done bits with
  | case1 => simp_all
  | case2 => simp at h
  | case3 done bits _ symbol r hd _ _ ih =>
    have := ih h
    omega
  | case4 => simp at h
  | case5 => simp at h
  | case6 => simp at h
  | case7 done bits _ symbol r hd _ _ value least extra _ more r' hn _ _ ih =>
    have := ih h
    omega

/-- Codes in front of a block leave no more bits than there were. -/
theorem length_of_readCodes? {literals distances : PrefixCode} {bits rest : Bits}
    (h : readCodes? bits = some (literals, distances, rest)) : rest.length ≤ bits.length := by
  simp only [readCodes?, Option.bind_eq_bind, Option.bind_eq_some_iff] at h
  obtain ⟨⟨_, b₁⟩, h₁, ⟨_, b₂⟩, h₂, ⟨_, b₃⟩, h₃, h⟩ := h
  split at h
  · simp at h
  · simp only [Option.bind_eq_some_iff] at h
    obtain ⟨⟨_, b₄⟩, h₄, _, _, ⟨_, b₅⟩, h₅, _, _, _, _, h⟩ := h
    simp only [Option.pure_def, Option.some.injEq, Prod.mk.injEq] at h
    obtain ⟨_, _, rfl⟩ := h
    have := Bits.length_of_number? h₁
    have := Bits.length_of_number? h₂
    have := Bits.length_of_number? h₃
    have := length_of_readTriples? h₄
    have := length_of_readLengths? h₅
    simp only at *
    omega

theorem length_readBlock_le {limit kind : Nat} {out : Array UInt8} {bits rest : Bits}
    (h : (readBlock limit kind out bits).2 = some rest) : rest.length ≤ bits.length := by
  unfold readBlock at h
  split at h
  · exact length_readStored_le h
  · split at h
    · exact length_readSymbols_le h
    · simp at h
  · split at h
    · rename_i hc
      have := length_of_readCodes? hc
      have := length_readSymbols_le h
      omega
    · simp at h
  · simp at h

/-- Reads blocks up to the last one, a fault, or the number of bytes that is wanted. -/
def readBlocks (limit : Nat) (out : Array UInt8) (bits : Bits) : Array UInt8 :=
  match hf : Bits.number? 1 bits with
  | none => out
  | some (final, rest) =>
    match hk : Bits.number? 2 rest with
    | none => out
    | some (kind, rest') =>
      let block := readBlock limit kind out rest'
      match hb : block.2 with
      | none => block.1
      | some rest'' =>
        have := Bits.length_of_number? hf
        have := Bits.length_of_number? hk
        have := length_readBlock_le hb
        if final == 1 then block.1 else readBlocks limit block.1 rest''
termination_by bits.length

/-- What follows the header of a stream, if the header is right: it names the method and a window
that is not too large, and is a multiple of 31. -/
def body? : Bytes → Option Bytes
  | method :: flags :: rest =>
    if method &&& 0x0F != 8 || 0x7F < method || (method.toNat * 256 + flags.toNat) % 31 != 0 then
      none
    else if flags &&& 0x20 == 0 then some rest
    else if rest.take 4 == [0, 0, 0, 1] then some (rest.drop 4)
    else none
  | _ => none

/-- The first `n` bytes that a stream holds, if there are that many. -/
def expand? (n : Nat) (stream : Bytes) : Option Bytes := do
  let out := (readBlocks n #[] (Bits.ofBytes (← body? stream))).toList
  if out.length < n then none else some (out.take n)

end Deflate
end Compression
end Firmware
