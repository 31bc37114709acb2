import Firmware.Compression.Zstandard.Checksum
import Firmware.Compression.Zstandard.Sequence

/-!
# Frames

Data is a row of frames, some of which hold nothing and are skipped. A frame is a header and blocks,
of which one says that it is the last; the header may give the size of the contents and announce a
checksum. A block counts as a whole or not at all, and so the contents up to a fault are those of
the blocks in front of it.
-/

namespace Firmware
namespace Compression
namespace Zstandard

structure Frame where
  checked : Bool
  /-- How much of the contents is to come, if the header says. -/
  left? : Option Nat
  /-- How far back copies may reach, within the frame. -/
  window : Nat
  start : Nat
  memory : Memory := {}

def magic : Bytes := [0x28, 0xB5, 0x2F, 0xFD]

def isSkipped (front : Bytes) : Bool :=
  match front with
  | [a, b, c, d] => a &&& 0xF0 == 0x50 && [b, c, d] == [0x2A, 0x4D, 0x18]
  | _ => false

def largestWindow : Nat := 8 * 1024 * 1024

/-- The window that a byte of the header stands for. -/
def windowOf (b : UInt8) : Nat :=
  let base := 1 <<< (10 + b.toNat / 8)
  base + base / 8 * (b.toNat % 8)

/-- The number of bytes of the size of the contents; with one segment there is at least one. -/
def sizeBytes (descriptor : Nat) : Nat :=
  if descriptor / 64 == 0 then if descriptor.testBit 5 then 1 else 0 else 1 <<< (descriptor / 64)

def dictionaryBytes (descriptor : Nat) : Nat := [0, 1, 2, 4].getD (descriptor % 4) 0

/-- Reads the header of a frame behind the bytes that start it, where the contents start at `start`.
Only the dictionary zero, which is none, is known. -/
def Frame.read? (start : Nat) (data : Bytes) : Option (Frame × Bytes) := do
  let (descriptor, data) ← Bytes.split? 1 data
  let descriptor := (descriptor.headD 0).toNat
  let single := descriptor.testBit 5
  let (window, data) ← Bytes.split? (if single then 0 else 1) data
  let (dictionary, data) ← Bytes.split? (dictionaryBytes descriptor) data
  let (size, data) ← Bytes.split? (sizeBytes descriptor) data
  if descriptor.testBit 3 || dictionary.any (· != 0) then none
  else
    let value := Bytes.number .little size.length size + (if size.length == 2 then 256 else 0)
    let frame : Frame :=
      { checked := descriptor.testBit 2
        left? := if size.isEmpty then none else some value
        window := min largestWindow (if single then value else windowOf (window.headD 0))
        start }
    some (frame, data)

namespace Frame

/-- Adds the contents of a block of a kind, and gives what it leaves to the next block and the data
behind it. -/
def contents? (f : Frame) (kind size : Nat) (out : Array UInt8) (data : Bytes) :
    Option (Memory × Array UInt8 × Bytes) :=
  match kind with
  | 0 => do
    let (bytes, rest) ← Bytes.split? size data
    return (f.memory, out ++ bytes.toArray, rest)
  | 1 => do
    let (byte, rest) ← Bytes.split? 1 data
    return (f.memory, out ++ Array.replicate size (byte.headD 0), rest)
  | 2 => do
    let (block, rest) ← Bytes.split? size data
    let (memory, out) ← readCompressed? f.memory (min (out.size - f.start) f.window) out block
    return (memory, out, rest)
  | _ => none

/-- The data behind a frame whose contents are complete, if they are right. -/
def close? (f : Frame) (out : Array UInt8) (data : Bytes) : Option Bytes := do
  if f.left?.any (0 < ·) then none
  else if !f.checked then some data
  else
    let (stored, rest) ← Bytes.split? 4 data
    if stored == Checksum.stored (out.extract f.start out.size).toList then some rest else none

/-- Reads a block. Behind the last one there is no frame any more. -/
def block? (f : Frame) (out : Array UInt8) (data : Bytes) :
    Option (Option Frame × Array UInt8 × Bytes) := do
  let (header, data) ← Bytes.split? 3 data
  let header := Bytes.number .little 3 header
  let size := header / 8
  if largestBlock < size || 0 < f.window && f.window < size then none
  else
    let (memory, full, data) ← f.contents? (header / 2 % 4) size out data
    let added := full.size - out.size
    if f.left?.any (· < added) then none
    else
      let f := { f with memory, left? := f.left?.map (· - added) }
      if header % 2 == 0 then some (some f, full, data)
      else some (none, full, ← f.close? full data)

end Frame

/-- Reads the next part: the start of a frame, a frame that is skipped, or a block. -/
def readPart? (frame? : Option Frame) (out : Array UInt8) (data : Bytes) :
    Option (Option Frame × Array UInt8 × Bytes) :=
  match frame? with
  | some f => f.block? out data
  | none => do
    let (front, data) ← Bytes.split? 4 data
    if front == magic then
      let (f, data) ← Frame.read? out.size data
      return (some f, out, data)
    else if isSkipped front then
      let (size, data) ← Bytes.split? 4 data
      let (_, data) ← Bytes.split? (Bytes.number .little 4 size) data
      return (none, out, data)
    else none

theorem length_of_split? {n : Nat} {b front rest : Bytes}
    (h : Bytes.split? n b = some (front, rest)) : b.length = rest.length + n := by
  simp only [Bytes.split?] at h
  split at h
  · simp at h
  · rename_i hn
    simp only [List.length_take] at hn
    simp only [Option.some.injEq, Prod.mk.injEq] at h
    obtain ⟨_, rfl⟩ := h
    simp only [List.length_drop]
    omega

/-- The contents of a block leave no more data than there was. -/
theorem length_of_contents? {f : Frame} {kind size : Nat} {out full : Array UInt8} {m : Memory}
    {data rest : Bytes} (h : f.contents? kind size out data = some (m, full, rest)) :
    rest.length ≤ data.length := by
  unfold Frame.contents? at h
  split at h
  all_goals
    simp only [Option.bind_eq_bind, Option.bind_eq_some_iff, Option.pure_def, Option.some.injEq,
      Prod.mk.injEq, reduceCtorEq] at h
  · obtain ⟨⟨_, _⟩, hs, _, _, rfl⟩ := h
    have := length_of_split? hs
    simp only
    omega
  · obtain ⟨⟨_, _⟩, hs, _, _, rfl⟩ := h
    have := length_of_split? hs
    simp only
    omega
  · obtain ⟨⟨_, _⟩, hs, ⟨_, _⟩, _, _, _, rfl⟩ := h
    have := length_of_split? hs
    simp only
    omega

/-- The end of a frame leaves no more data than there was. -/
theorem length_of_close? {f : Frame} {out : Array UInt8} {data rest : Bytes}
    (h : f.close? out data = some rest) : rest.length ≤ data.length := by
  unfold Frame.close? at h
  split at h
  · simp at h
  · split at h
    · simp_all
    · simp only [Option.bind_eq_bind, Option.bind_eq_some_iff] at h
      obtain ⟨⟨_, _⟩, hs, h⟩ := h
      have := length_of_split? hs
      split at h
      · simp_all
      · simp at h

/-- A block takes some data. -/
theorem length_of_block? {f : Frame} {next? : Option Frame} {out full : Array UInt8}
    {data rest : Bytes} (h : f.block? out data = some (next?, full, rest)) :
    rest.length < data.length := by
  simp only [Frame.block?, Option.bind_eq_bind, Option.bind_eq_some_iff] at h
  obtain ⟨⟨_, _⟩, hs, h⟩ := h
  have := length_of_split? hs
  split at h
  · simp at h
  · simp only [Option.bind_eq_some_iff] at h
    obtain ⟨⟨_, _, _⟩, hc, h⟩ := h
    have := length_of_contents? hc
    split at h
    · simp at h
    · split at h
      · simp only [Option.some.injEq, Prod.mk.injEq] at h
        obtain ⟨_, _, rfl⟩ := h
        omega
      · simp only [Option.bind_eq_some_iff] at h
        obtain ⟨_, he, h⟩ := h
        have := length_of_close? he
        simp only [Option.some.injEq, Prod.mk.injEq] at h
        obtain ⟨_, _, rfl⟩ := h
        omega

/-- The header of a frame leaves no more data than there was. -/
theorem length_of_readFrame? {start : Nat} {f : Frame} {data rest : Bytes}
    (h : Frame.read? start data = some (f, rest)) : rest.length ≤ data.length := by
  simp only [Frame.read?, Option.bind_eq_bind, Option.bind_eq_some_iff] at h
  obtain ⟨⟨_, _⟩, h₁, ⟨_, _⟩, h₂, ⟨_, _⟩, h₃, ⟨_, _⟩, h₄, h⟩ := h
  have := length_of_split? h₁
  have := length_of_split? h₂
  have := length_of_split? h₃
  have := length_of_split? h₄
  split at h
  · simp at h
  · simp only [Option.some.injEq, Prod.mk.injEq] at h
    obtain ⟨_, rfl⟩ := h
    simp only at *
    omega

/-- A part takes some data. -/
theorem length_of_readPart? {frame? next? : Option Frame} {out full : Array UInt8}
    {data rest : Bytes} (h : readPart? frame? out data = some (next?, full, rest)) :
    rest.length < data.length := by
  unfold readPart? at h
  split at h
  · exact length_of_block? h
  · simp only [Option.bind_eq_bind, Option.bind_eq_some_iff] at h
    obtain ⟨⟨_, _⟩, hs, h⟩ := h
    have := length_of_split? hs
    split at h
    · simp only [Option.bind_eq_some_iff, Option.pure_def, Option.some.injEq,
        Prod.mk.injEq] at h
      obtain ⟨⟨_, _⟩, hf, _, _, rfl⟩ := h
      have := length_of_readFrame? hf
      simp only at *
      omega
    · split at h
      · simp only [Option.bind_eq_some_iff, Option.pure_def, Option.some.injEq,
          Prod.mk.injEq] at h
        obtain ⟨⟨_, _⟩, h₁, ⟨_, _⟩, h₂, _, _, rfl⟩ := h
        have := length_of_split? h₁
        have := length_of_split? h₂
        simp only at *
        omega
      · simp at h

/-- Reads parts up to the end, a fault, or the number of bytes that is wanted. -/
def readParts (limit : Nat) (frame? : Option Frame) (out : Array UInt8) (data : Bytes) :
    Array UInt8 :=
  if limit ≤ out.size then out
  else
    match h : readPart? frame? out data with
    | none => out
    | some (next?, full, rest) =>
      have := length_of_readPart? h
      readParts limit next? full rest
termination_by data.length

/-- The first `n` bytes that data holds, if there are that many. -/
def expand? (n : Nat) (data : Bytes) : Option Bytes :=
  let out := (readParts n none #[] data).toList
  if out.length < n then none else some (out.take n)

end Zstandard
end Compression
end Firmware
