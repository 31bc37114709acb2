import Firmware.Text.Utf8
import Firmware.Text.Printable

/-!
# Quoted text

Text between double quotes in which every character that is not printable is written as an escape:
a short one where there is one, two hexadecimal digits for control characters and stray bytes,
four or eight for the other characters.
-/

namespace Firmware
namespace Text

/-- The `i`-th hexadecimal digit in lower case. -/
def lowerDigit (i : Nat) : Char := Nat.digitChar i

def hexDigits (width n : Nat) : List Char :=
  (List.range width).reverse.map fun i => lowerDigit (n >>> (4 * i) % 16)

namespace Quoted

/-- How one character stands between quotes. -/
def escape (c : Char) : List Char :=
  if c == '"' || c == '\\' then ['\\', c]
  else if isPrintable c then [c]
  else
    match c.toNat with
    | 7 => ['\\', 'a']
    | 8 => ['\\', 'b']
    | 9 => ['\\', 't']
    | 10 => ['\\', 'n']
    | 11 => ['\\', 'v']
    | 12 => ['\\', 'f']
    | 13 => ['\\', 'r']
    | n =>
      if n < 0x20 || n == 0x7F then '\\' :: 'x' :: hexDigits 2 n
      else if n < 0x10000 then '\\' :: 'u' :: hexDigits 4 n
      else '\\' :: 'U' :: hexDigits 8 n

/-- How one piece of possibly broken text stands between quotes. -/
def piece : Utf8.Piece → List Char
  | .char c => escape c
  | .stray b => '\\' :: 'x' :: hexDigits 2 b.toNat

end Quoted

def quoteBytes (b : Bytes) : String :=
  String.ofList ('"' :: (Utf8.decode b).flatMap Quoted.piece ++ ['"'])

def quote (s : String) : String :=
  String.ofList ('"' :: s.toList.flatMap Quoted.escape ++ ['"'])

end Text
end Firmware
