import Firmware.Statement.Pragma

/-!
# Definitions

The statements that describe the tables and indexes of a database file. Of a table the names of its
columns count, and those that it has indexes of its own for; the rest of a description is passed
over.
-/

namespace Firmware
namespace Statement

/-- What a description is about. -/
inductive Definition where
  | table (name : Bytes) (rest : List Token)
  | index (name : Bytes)
  | view (name : Bytes)
  /-- Something that holds no rows. -/
  | other
deriving DecidableEq, Repr

namespace Definition

/-- The tokens behind a word, which may be left out. -/
def skipWord (word : String) : List Token → List Token
  | [] => []
  | t :: rest => if t.isWord word then rest else t :: rest

def expectWord (word : String) (ts : List Token) : Except Fault (List Token) :=
  match ts with
  | t :: rest => if t.isWord word then .ok rest else .error (unexpected ts)
  | [] => .error .incomplete

/-- The tokens behind the words that let a thing be there already. -/
def skipCondition (ts : List Token) : Except Fault (List Token) :=
  match ts with
  | t :: rest => if t.isWord "if" then expectWord "not" rest >>= expectWord "exists" else .ok ts
  | [] => .ok []

/-- The name of what is described, behind that of its database, and the tokens that follow. -/
def readName (ts : List Token) : Except Fault (Bytes × List Token) := do
  let (_, name, rest) ← Pragma.readNames (← skipCondition ts)
  return (name.value, rest)

/-- The parts between parentheses, cut at the commas that are in no further parentheses. It fails
when the parentheses are not closed. -/
def partsFrom (depth : Nat) (part : List Token) : List Token → Except Fault (List (List Token))
  | [] => .error .incomplete
  | t :: rest =>
    if t.kind == .illegal then .error (unexpected (t :: rest))
    else if t.kind == .closing then
      match depth with
      | 0 => .ok [part.reverse]
      | d + 1 => partsFrom d (t :: part) rest
    else if t.kind == .opening then partsFrom (depth + 1) (t :: part) rest
    else if t.kind == .comma && depth == 0 then do
      return part.reverse :: (← partsFrom 0 [] rest)
    else partsFrom depth (t :: part) rest

/-- The words that begin a part which is not a column. -/
def constraintWords : List String := ["constraint", "primary", "unique", "check", "foreign"]

/-- The name of the column that a part describes, if it describes one. -/
def column? : List Token → Option Bytes
  | [] => none
  | t :: _ => if constraintWords.any t.isWord then none else some t.value

/-- The word that begins the constraints of a column. -/
def isConstraint (t : Token) : Bool :=
  ["constraint", "primary", "not", "null", "unique", "check", "default", "collate", "references",
    "generated", "as"].any t.isWord

/-- Whether a column is the number of the row itself: a key that is a plain integer. -/
def isRowNumber (part : List Token) : Bool :=
  match (part.drop 1).takeWhile (!isConstraint ·) with
  | [t] => t.isWord "integer" && part.any (·.isWord "primary")
  | _ => false

/-- The first column of the index that a part asks for, if it does: a key, or that values are not
repeated. -/
def indexed? (part : List Token) : Option Bytes :=
  if !part.any (fun t => t.isWord "primary" || t.isWord "unique") || isRowNumber part then none
  else
    match column? part with
    | some name => some name
    | none => ((part.dropWhile (·.kind != .opening)).drop 1).head?.map (·.value)

/-- A table from behind its name: its columns or a selection have to follow. -/
def readTable (name : Bytes) : List Token → Except Fault Definition
  | [] => .error .incomplete
  | t :: rest =>
    if t.kind == .opening || t.isWord "as" then .ok (.table name (t :: rest))
    else .error (unexpected (t :: rest))

/-- The columns of a table and the first column of every index that comes with it. One that is made
from a selection shows none. -/
def readColumns : List Token → Except Fault (List Bytes × List Bytes)
  | [] => .error .incomplete
  | t :: rest =>
    if t.kind == .opening then do
      let parts ← partsFrom 0 [] rest
      return (parts.filterMap column?, parts.filterMap indexed?)
    else .ok ([], [])

def readNew (ts : List Token) : Except Fault Definition :=
  match skipWord "unique" (skipWord "temporary" (skipWord "temp" ts)) with
  | [] => .error .incomplete
  | t :: rest =>
    if t.isWord "table" then do
      let (name, rest) ← readName rest
      readTable name rest
    else if t.isWord "index" then do
      let (name, _) ← readName rest
      return .index name
    else if t.isWord "view" then do
      let (name, _) ← readName rest
      return .view name
    else if t.isWord "trigger" || t.isWord "virtual" then .ok .other
    else .error (unexpected (t :: rest))

def read (ts : List Token) : Except Fault Definition := expectWord "create" ts >>= readNew

end Definition
end Statement
end Firmware
