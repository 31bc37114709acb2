import Firmware.Text.Quoted

/-!
# Numerals

Reading unsigned numerals in a fixed base, or in the base that the numeral itself marks (`0x`,
`0o`, `0b`, a leading zero for octal), where underscores may separate digits. A numeral is read
from left to right and the first fault met decides: a character that is no digit, or a value above
the largest one allowed.
-/

namespace Firmware
namespace Numeral

/-- Why a numeral cannot be read. -/
inductive Fault where
  | malformed
  | tooLarge
deriving DecidableEq, Repr

def Fault.message : Fault → String
  | .malformed => "invalid syntax"
  | .tooLarge => "value out of range"

def Fault.describe (f : Fault) (text : Bytes) : String :=
  "strconv.ParseUint: parsing " ++ Text.quoteBytes text ++ ": " ++ f.message

inductive Base where
  | fixed (base : Nat)
  /-- The numeral's own mark tells, and digits may be separated by underscores. -/
  | marked
deriving DecidableEq, Repr

def underscore : UInt8 := 0x5F

def digit? (b : UInt8) : Option Nat :=
  if 0x30 ≤ b ∧ b ≤ 0x39 then some (b.toNat - 0x30)
  else if 0x61 ≤ b ∧ b ≤ 0x7A then some (b.toNat - 0x61 + 10)
  else if 0x41 ≤ b ∧ b ≤ 0x5A then some (b.toNat - 0x41 + 10)
  else none

/-- Whether `b` is the letter of the lower case byte `letter`, in either case. -/
def isLetter (letter b : UInt8) : Bool := b ||| 0x20 == letter

def splitMark (text : Bytes) : Nat × Bytes :=
  match text with
  | 0x30 :: m :: d :: rest =>
    if isLetter 0x62 m then (2, d :: rest)
    else if isLetter 0x6F m then (8, d :: rest)
    else if isLetter 0x78 m then (16, d :: rest)
    else (8, m :: d :: rest)
  | 0x30 :: rest => (8, rest)
  | _ => (10, text)

def accumulate (base largest : Nat) (separated : Bool) : Nat → Bytes → Except Fault Nat
  | n, [] => .ok n
  | n, b :: rest =>
    if separated && b == underscore then accumulate base largest separated n rest
    else
      match digit? b with
      | none => .error .malformed
      | some d =>
        if base ≤ d then .error .malformed
        else if largest < n * base + d then .error .tooLarge
        else accumulate base largest separated (n * base + d) rest

inductive Last where
  | start
  | digit
  | underscore
  | other
deriving DecidableEq, Repr

/-- Whether every underscore stands between two digits, a base mark counting as a digit. -/
def separatorsFit (hexadecimal : Bool) : Last → Bytes → Bool
  | last, [] => last != .underscore
  | last, b :: rest =>
    if (0x30 ≤ b && b ≤ 0x39) || (hexadecimal && 0x61 ≤ (b ||| 0x20) && (b ||| 0x20) ≤ 0x66) then
      separatorsFit hexadecimal .digit rest
    else if b == underscore then
      last == .digit && separatorsFit hexadecimal .underscore rest
    else last != .underscore && separatorsFit hexadecimal .other rest

/-- Whether the underscores of a numeral, sign and base mark included, stand where they may. -/
def underscoresFit (text : Bytes) : Bool :=
  let unsigned := match text with
    | s :: rest => if s == 0x2D || s == 0x2B then rest else text
    | [] => []
  match unsigned with
  | 0x30 :: m :: rest =>
    if isLetter 0x62 m || isLetter 0x6F m || isLetter 0x78 m then
      separatorsFit (isLetter 0x78 m) .digit rest
    else separatorsFit false .start unsigned
  | _ => separatorsFit false .start unsigned

def read (base : Base) (bits : Nat) (text : Bytes) : Except Fault Nat :=
  if text.isEmpty then .error .malformed
  else
    match base with
    | .fixed b => accumulate b (1 <<< bits - 1) false 0 text
    | .marked =>
      let (b, digits) := splitMark text
      match accumulate b (1 <<< bits - 1) true 0 digits with
      | .error f => .error f
      | .ok n =>
        if text.contains underscore && !underscoresFit text then .error .malformed else .ok n

/-- Reads a signed 64-bit numeral whose own mark gives the base. -/
def readSigned (text : Bytes) : Except Fault Int :=
  let signed (negative : Bool) (digits : Bytes) : Except Fault Int :=
    match read .marked 64 digits with
    | .error f => .error f
    | .ok n =>
      if negative then if 0x8000000000000000 < n then .error .tooLarge else .ok (-(n : Int))
      else if 0x8000000000000000 ≤ n then .error .tooLarge else .ok n
  match text with
  | 0x2B :: rest => signed false rest
  | 0x2D :: rest => signed true rest
  | _ => signed false text

/-- Decimal digits, with a minus sign in front of a negative number. -/
def decimal (n : Int) : String :=
  match n with
  | .ofNat m => String.ofList (Nat.toDigits 10 m)
  | .negSucc m => String.ofList ('-' :: Nat.toDigits 10 (m + 1))

/-- Hexadecimal digits in lower case, without leading zeros. -/
def hex (n : Nat) : String := String.ofList (Nat.toDigits 16 n)

def signedHex (n : Int) : String :=
  match n with
  | .ofNat m => hex m
  | .negSucc m => "-" ++ hex (m + 1)

/-- Exactly eight hexadecimal digits of a 32-bit word. -/
def hex8 (w : UInt32) : String := String.ofList (Text.hexDigits 8 w.toNat)

end Numeral
end Firmware
