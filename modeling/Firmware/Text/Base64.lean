import Firmware.Text.Utf8

/-!
# Base64

The standard alphabet with padding. Line ends inside the text are skipped. Four digits give three
bytes; a last group of two or three digits is completed with `=`.
-/

namespace Firmware
namespace Base64

def digit? (b : UInt8) : Option Nat :=
  if 0x41 ≤ b ∧ b ≤ 0x5A then some (b.toNat - 0x41)
  else if 0x61 ≤ b ∧ b ≤ 0x7A then some (b.toNat - 0x61 + 26)
  else if 0x30 ≤ b ∧ b ≤ 0x39 then some (b.toNat - 0x30 + 52)
  else if b == 0x2B then some 62
  else if b == 0x2F then some 63
  else none

def padding : UInt8 := 0x3D

def isLineEnd (b : UInt8) : Bool := b == 0x0A || b == 0x0D

/-- The bytes of a group of digits, most significant first: one byte less than there are digits. -/
def groupBytes (digits : List Nat) : Bytes :=
  let n := (digits ++ List.replicate (4 - digits.length) 0).foldl (fun acc d => acc * 64 + d) 0
  [(n / 65536).toUInt8, (n / 256).toUInt8, n.toUInt8].take (digits.length - 1)

/-- What follows the first padding character at position `pos - 1` behind `digits`: the second one
when two digits are missing, then nothing but line ends. Gives the position of the fault. -/
def checkPadding (digits : List Nat) (pos : Nat) (rest : Bytes) : Except Nat Unit :=
  let skip (pos : Nat) (rest : Bytes) : Nat × Bytes :=
    (pos + (rest.takeWhile isLineEnd).length, rest.dropWhile isLineEnd)
  let ending (pos : Nat) (rest : Bytes) : Except Nat Unit :=
    let (pos, rest) := skip pos rest
    if rest.isEmpty then .ok () else .error pos
  match digits.length with
  | 2 =>
    let (pos, rest) := skip pos rest
    match rest with
    | [] => .error pos
    | b :: rest => if b == padding then ending (pos + 1) rest else .error (pos - 1)
  | 3 => ending pos rest
  | _ => .error (pos - 1)

/-- Reads from position `pos` on, with the `digits` of the group begun and the reversed bytes
`acc` of the groups before. Gives the position of the first fault. -/
def decodeFrom (digits : List Nat) (acc : Bytes) (pos : Nat) : Bytes → Except Nat Bytes
  | [] => if digits.isEmpty then .ok acc.reverse else .error (pos - digits.length)
  | b :: rest =>
    match digit? b with
    | some d =>
      if digits.length == 3 then
        decodeFrom [] ((groupBytes (digits ++ [d])).reverse ++ acc) (pos + 1) rest
      else decodeFrom (digits ++ [d]) acc (pos + 1) rest
    | none =>
      if isLineEnd b then decodeFrom digits acc (pos + 1) rest
      else if b == padding then
        match checkPadding digits (pos + 1) rest with
        | .ok _ => .ok ((groupBytes digits).reverse ++ acc).reverse
        | .error at_ => .error at_
      else .error pos

def decode (b : Bytes) : Except Nat Bytes := decodeFrom [] [] 0 b

def digit (n : Nat) : Char :=
  if n < 26 then Char.ofNat (0x41 + n)
  else if n < 52 then Char.ofNat (0x61 + (n - 26))
  else if n < 62 then Char.ofNat (0x30 + (n - 52))
  else if n == 62 then '+'
  else '/'

def encodeOnto (acc : List Char) : Bytes → List Char
  | a :: b :: c :: rest =>
    let n := a.toNat * 65536 + b.toNat * 256 + c.toNat
    encodeOnto (digit (n % 64) :: digit (n / 64 % 64) :: digit (n / 4096 % 64) ::
      digit (n / 262144) :: acc) rest
  | [a, b] =>
    let n := a.toNat * 65536 + b.toNat * 256
    ('=' :: digit (n / 64 % 64) :: digit (n / 4096 % 64) :: digit (n / 262144) :: acc).reverse
  | [a] =>
    let n := a.toNat * 65536
    ('=' :: '=' :: digit (n / 4096 % 64) :: digit (n / 262144) :: acc).reverse
  | [] => acc.reverse

/-- The text of bytes: four digits for every three of them, the last ones completed with padding. -/
def encode (b : Bytes) : List Char := encodeOnto [] b

end Base64
end Firmware
