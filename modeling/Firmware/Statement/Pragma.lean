import Firmware.Statement.Token
import Firmware.Text.Query

/-!
# Pragmas

A pragma is a statement that asks a connection about a setting or changes it. Its value stands
behind an equals sign or between parentheses: a number with or without a sign, a name, or one of
three words that are otherwise reserved.
-/

namespace Firmware
namespace Statement

/-- Which of the databases of a connection a pragma is about. -/
inductive Schema where
  | main
  | temp
deriving DecidableEq, Repr

structure Pragma where
  schema : Option Schema
  /-- The name in lower case. -/
  name : Bytes
  value : Option Bytes
deriving DecidableEq, Repr

/-- The database of a name. -/
def Schema.ofToken (t : Token) : Except Fault Schema :=
  let name := lower t.value
  if name == Utf8.encode "main" then .ok .main
  else if name == Utf8.encode "temp" then .ok .temp
  else .error (.unknownDatabase t.text)

namespace Pragma

/-- The words that are values although they are reserved. -/
def valueWords : List String := ["on", "delete", "default"]

def isValue (t : Token) : Bool :=
  t.kind == .number || t.isName || valueWords.any t.isWord

def readValue : List Token → Except Fault (Bytes × List Token)
  | [] => .error .incomplete
  | t :: rest =>
    if isValue t then .ok (t.value, rest)
    else if t.kind == .plus || t.kind == .minus then
      match rest with
      | n :: after =>
        if n.kind == .number then
          .ok (if t.kind == .minus then 0x2D :: n.text else n.text, after)
        else .error (unexpected rest)
      | [] => .error .incomplete
    else .error (unexpected (t :: rest))

def readName : List Token → Except Fault (Token × List Token)
  | [] => .error .incomplete
  | t :: rest => if t.isName then .ok (t, rest) else .error (unexpected (t :: rest))

/-- The value of a pragma, if there is one, and the tokens behind it. -/
def readSetting : List Token → Except Fault (Option Bytes × List Token)
  | [] => .ok (none, [])
  | t :: rest =>
    if t.kind == .equals then do
      let (value, rest) ← readValue rest
      return (some value, rest)
    else if t.kind == .opening then do
      let (value, rest) ← readValue rest
      match rest with
      | [] => .error .incomplete
      | t :: after =>
        if t.kind == .closing then return (some value, after) else .error (unexpected rest)
    else .ok (none, t :: rest)

/-- The name of a pragma with that of its database, and the tokens behind them. -/
def readNames (ts : List Token) : Except Fault (Option Token × Token × List Token) := do
  let (first, rest) ← readName ts
  match rest with
  | t :: after =>
    if t.kind == .dot then
      let (second, rest) ← readName after
      return (some first, second, rest)
    else return (none, first, rest)
  | [] => return (none, first, [])

/-- Reads a pragma from behind its first word. All of it has to be well formed before its database
is looked for. -/
def read (ts : List Token) : Except Fault Pragma := do
  let (database, name, rest) ← readNames ts
  let (value, rest) ← readSetting rest
  match rest with
  | t :: _ => if t.kind == .semicolon then pure () else throw (unexpected rest)
  | [] => pure ()
  return ⟨← database.mapM Schema.ofToken, lower name.value, value⟩

end Pragma

def statementWords : List String :=
  ["alter", "analyze", "attach", "begin", "commit", "create", "delete", "detach", "drop", "end",
   "explain", "insert", "reindex", "release", "replace", "rollback", "savepoint", "select",
   "update", "vacuum", "values", "with"]

/-- Reads a statement. There is nothing to do for one without tokens, and only pragmas are carried
out. -/
def readStatement : List Token → Except Fault (Option Pragma)
  | [] => .ok none
  | t :: rest =>
    if t.kind == .semicolon then .ok none
    else if t.isWord "pragma" then (Pragma.read rest).map some
    else if statementWords.any t.isWord then .ok none
    else .error (unexpected (t :: rest))

/-! ## Numbers -/

def ofDigits (base : Nat) (digits : Bytes) : Nat :=
  digits.foldl (fun n d => n * base + ((Query.digit? d).getD 0).toNat) 0

/-- The hexadecimal digits of a text that begins with `0x`. -/
def hexDigits? : Bytes → Option Bytes
  | 0x30 :: x :: rest =>
    if toLower x == 0x78 && rest.head?.any isHexDigit then
      some ((rest.takeWhile isHexDigit).dropWhile (· == 0x30))
    else none
  | _ => none

/-- The sign of a number and what follows it. -/
def splitSign : Bytes → Bool × Bytes
  | 0x2D :: rest => (true, rest)
  | 0x2B :: rest => (false, rest)
  | b => (false, b)

/-- The number of 32 bits that a text begins with: decimal digits with or without a sign, or
hexadecimal ones. What follows the number does not count. -/
def leadingInt32? (b : Bytes) : Option Int :=
  match hexDigits? b with
  | some digits =>
    let n := ofDigits 16 digits
    if n < 0x80000000 then some n else none
  | none =>
    let (isNegative, rest) := splitSign b
    let digits := rest.takeWhile isDigit
    let n := ofDigits 10 digits
    if digits.isEmpty then none
    else if isNegative then if n ≤ 0x80000000 then some (-n) else none
    else if n < 0x80000000 then some n else none

/-- The number of 64 bits that a text is, blanks apart. -/
def int64? (b : Bytes) : Option Int :=
  match hexDigits? b with
  | some digits =>
    if (b.drop 2).all isHexDigit && digits.length ≤ 16 then
      some ((ofDigits 16 digits : Int).bmod 0x10000000000000000)
    else none
  | none =>
    let (isNegative, rest) := splitSign (b.dropWhile isSpace)
    let digits := rest.takeWhile isDigit
    let n := ofDigits 10 digits
    if digits.isEmpty || !(rest.drop digits.length).all isSpace then none
    else if isNegative then if n ≤ 0x8000000000000000 then some (-n) else none
    else if n < 0x8000000000000000 then some n else none

/-- Whether a value says yes: a number whose low eight bits are not zero, or one of three words. -/
def saysYes (value : Bytes) : Bool :=
  if value.head?.any isDigit then ((leadingInt32? value).getD 0) % 256 != 0
  else ["on", "yes", "true"].any (Utf8.encode · == lower value)

end Statement
end Firmware
