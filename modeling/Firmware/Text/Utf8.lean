import Firmware.Bytes

/-!
# UTF-8 text as bytes

Lengths and cuts of record lines count bytes, so a cut may fall inside a character. Reading such
bytes back is total: a byte that belongs to no character is kept as a stray byte of its own.
-/

namespace Firmware
namespace Utf8

def encode (s : String) : Bytes := s.toList.flatMap String.utf8EncodeChar

/-- What a byte string reads as: characters, and bytes that belong to none. -/
inductive Piece where
  | char (c : Char)
  | stray (b : UInt8)
deriving DecidableEq, Repr

def isContinuation (b : UInt8) : Bool := b &&& 0xC0 == 0x80

/-- The six payload bits of a continuation byte. -/
def payload (b : UInt8) : Nat := (b &&& 0x3F).toNat

/-- The character at the start of `b` and the number of bytes it takes, if a well-formed one is
there: no overlong form, no surrogate, nothing above the last code point. -/
def first? : Bytes → Option (Char × Nat)
  | [] => none
  | b₀ :: rest =>
    if b₀ < 0x80 then some (Char.ofNat b₀.toNat, 1)
    else if b₀ < 0xC2 then none
    else if b₀ < 0xE0 then
      match rest with
      | b₁ :: _ =>
        if isContinuation b₁ then
          some (Char.ofNat ((b₀ &&& 0x1F).toNat * 64 + payload b₁), 2)
        else none
      | _ => none
    else if b₀ < 0xF0 then
      match rest with
      | b₁ :: b₂ :: _ =>
        let n := (b₀ &&& 0x0F).toNat * 4096 + payload b₁ * 64 + payload b₂
        if isContinuation b₁ && isContinuation b₂ && 0x800 ≤ n && n.isValidChar then
          some (Char.ofNat n, 3)
        else none
      | _ => none
    else if b₀ < 0xF5 then
      match rest with
      | b₁ :: b₂ :: b₃ :: _ =>
        let n := (b₀ &&& 0x07).toNat * 262144 + payload b₁ * 4096 + payload b₂ * 64 + payload b₃
        if isContinuation b₁ && isContinuation b₂ && isContinuation b₃ &&
            0x10000 ≤ n && n.isValidChar then
          some (Char.ofNat n, 4)
        else none
      | _ => none
    else none

def decode (b : Bytes) : List Piece :=
  match b with
  | [] => []
  | b₀ :: rest =>
    match first? (b₀ :: rest) with
    | some (c, n) => .char c :: decode (rest.drop (n - 1))
    | none => .stray b₀ :: decode rest
termination_by b.length
decreasing_by all_goals simp only [List.length_drop, List.length_cons]; omega

def display (b : Bytes) : String :=
  String.ofList ((decode b).map fun
    | .char c => c
    | .stray _ => Char.ofNat 0xFFFD)

def takeBytes (n : Nat) (s : String) : Bytes := (encode s).take n

end Utf8
end Firmware
