import Firmware.Text.Quoted

/-!
# Query strings

A query is a list of `name=value` pairs between ampersands. In names and values a plus is a space,
and a percent sign with two hexadecimal digits is a byte. A semicolon is refused wherever it
stands, before any faulty escape.
-/

namespace Firmware
namespace Query

/-- Why a query is refused. -/
inductive Fault where
  /-- A percent sign without two digits, with what follows it. -/
  | badEscape (text : Bytes)
  | semicolon
deriving DecidableEq, Repr

def Fault.message : Fault → String
  | .badEscape text => "invalid URL escape " ++ Text.quoteBytes text
  | .semicolon => "invalid semicolon separator in query"

/-- The value of a hexadecimal digit in either case. -/
def digit? (b : UInt8) : Option UInt8 :=
  if 0x30 ≤ b && b ≤ 0x39 then some (b - 0x30)
  else if 0x61 ≤ b && b ≤ 0x66 then some (b - 0x61 + 10)
  else if 0x41 ≤ b && b ≤ 0x46 then some (b - 0x41 + 10)
  else none

/-- The byte that two digits stand for. -/
def octet? (high low : UInt8) : Option UInt8 := do
  return (← digit? high) * 16 + (← digit? low)

def split (separator : UInt8) (b : Bytes) : List Bytes :=
  b.foldr (fun x acc =>
    if x == separator then [] :: acc
    else
      match acc with
      | part :: rest => (x :: part) :: rest
      | [] => [[x]]) [[]]

/-- A name or value without its escapes. -/
def unescape : Bytes → Except Fault Bytes
  | [] => .ok []
  | 0x25 :: high :: low :: rest =>
    match octet? high low with
    | some b => (unescape rest).map (b :: ·)
    | none => .error (.badEscape [0x25, high, low])
  | b :: rest =>
    if b == 0x25 then .error (.badEscape (b :: rest))
    else (unescape rest).map ((if b == 0x2B then 0x20 else b) :: ·)

/-- The pair that a part of a query stands for; without an equals sign the value is empty. -/
def pair (part : Bytes) : Except Fault (Bytes × Bytes) := do
  let name ← unescape (part.takeWhile (· != 0x3D))
  let value ← unescape ((part.dropWhile (· != 0x3D)).drop 1)
  return (name, value)

/-- The pairs of a query in order; empty parts do not count. -/
def parse (query : Bytes) : Except Fault (List (Bytes × Bytes)) :=
  let parts := (split 0x26 query).filter (!·.isEmpty)
  if parts.any (·.contains 0x3B) then .error .semicolon else parts.mapM pair

def values (name : String) (pairs : List (Bytes × Bytes)) : List Bytes :=
  (pairs.filter (·.1 == Utf8.encode name)).map (·.2)

end Query
end Firmware
