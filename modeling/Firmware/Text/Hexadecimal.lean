import Firmware.Text.Quoted

/-!
# Bytes as hexadecimal digits

Two digits a byte, high half first. Reading takes either case and refuses a character that is no
digit before it refuses an odd number of digits.
-/

namespace Firmware
namespace Hexadecimal

/-- Why a text is not a row of byte pairs. -/
inductive Fault where
  /-- The first byte of the text that is no digit. -/
  | stray (b : UInt8)
  | oddLength
deriving DecidableEq, Repr

/-- The wording of a fault. A stray byte is named by its code point, with its character where
that is printable. -/
def Fault.message : Fault → String
  | .stray b =>
    let c := Char.ofNat b.toNat
    let code := "encoding/hex: invalid byte: U+" ++
      String.ofList ((Text.hexDigits 4 b.toNat).map Char.toUpper)
    if Text.isPrintable c then code ++ " '" ++ String.ofList [c] ++ "'" else code
  | .oddLength => "encoding/hex: odd length hex string"

def lowerDigit (n : UInt8) : Char := Nat.digitChar n.toNat

def upperDigit (n : UInt8) : Char := (Nat.digitChar n.toNat).toUpper

/-- The two digits of a byte, high half first. -/
def pair (digit : UInt8 → Char) (b : UInt8) : List Char := [digit (b >>> 4), digit (b &&& 0xF)]

def lower (b : Bytes) : String := String.ofList (b.flatMap (pair lowerDigit))

def upper (b : Bytes) : String := String.ofList (b.flatMap (pair upperDigit))

def value? (c : Char) : Option UInt8 :=
  if '0' ≤ c ∧ c ≤ '9' then some (c.toNat - 0x30).toUInt8
  else if 'a' ≤ c ∧ c ≤ 'f' then some (c.toNat - 0x61 + 10).toUInt8
  else if 'A' ≤ c ∧ c ≤ 'F' then some (c.toNat - 0x41 + 10).toUInt8
  else none

def isDigit (c : Char) : Bool := (value? c).isSome

/-- Pairs up half bytes in front of the reversed bytes `acc`; an odd last one is left out. -/
def joinOnto (acc : Bytes) : List UInt8 → Bytes
  | hi :: lo :: rest => joinOnto ((hi <<< 4 ||| lo) :: acc) rest
  | _ => acc.reverse

def decodeChars (cs : List Char) : Except Fault Bytes :=
  match cs.find? (fun c => !isDigit c) with
  | some c => .error (.stray ((String.utf8EncodeChar c).headD 0))
  | none =>
    if cs.length % 2 == 1 then .error .oddLength
    else .ok (joinOnto [] (cs.filterMap value?))

def decode (s : String) : Except Fault Bytes := decodeChars s.toList

end Hexadecimal
end Firmware
