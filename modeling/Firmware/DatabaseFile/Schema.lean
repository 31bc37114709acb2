import Firmware.DatabaseFile.Table
import Firmware.Statement.Definition

/-!
# Schemas

The first table of a file describes the other ones: every row gives a kind, a name, the name of the
table, the page to begin with and the statement that made it. An index that comes with its table has
no statement.
-/

namespace Firmware
namespace DatabaseFile

/-- A table of a schema. Names are in lower case. -/
structure TableEntry where
  name : Bytes
  columns : List Bytes := []
  /-- The first columns of the indexes that come with the table. -/
  indexed : List Bytes := []
  /-- The page that the rows begin with. -/
  root : Nat := 0
deriving DecidableEq, Repr

def TableEntry.indexName (t : TableEntry) (i : Nat) : Bytes :=
  Utf8.encode "sqlite_autoindex_" ++ t.name ++ Utf8.encode ("_" ++ Numeral.decimal (i + 1))

/-- The tables of a database, and its indexes with the pages that they begin with. -/
structure Schema where
  tables : List TableEntry := []
  indexes : List (Bytes × Nat) := []
deriving DecidableEq, Repr

namespace Schema

def table? (s : Schema) (name : Bytes) : Option TableEntry := s.tables.find? (·.name == name)

def isEmpty (s : Schema) : Bool := s.tables.isEmpty && s.indexes.isEmpty

/-- A row of the first table. Texts end at a zero. -/
structure Row where
  kind : Option Bytes
  name : Option Bytes
  table : Option Bytes
  root : Option Bytes
  statement : Option Bytes

namespace Row

def ofValues (values : List Value) : Row :=
  let text (i : Nat) : Option Bytes := (valueAt values i).text?.map fun b => b.takeWhile (· != 0)
  ⟨text 0, text 1, text 2, text 3, text 4⟩

/-- The page to begin with, if it is one of a file with the given number of pages. -/
def root? (r : Row) (pages : Nat) : Option Nat :=
  match r.root with
  | none => none
  | some text =>
    let n := Statement.ofDigits 10 text
    if !text.isEmpty && text.all Statement.isDigit && n ≤ pages then some n else none

def fault (r : Row) (detail : Option Statement.SchemaFault) : DatabaseFault :=
  .malformedSchema (r.name.getD [0x3F]) detail

/-- Whether the row has a statement that makes something. -/
def isDefinition (r : Row) : Bool :=
  r.statement.any fun text => Statement.lower (text.take 2) == Utf8.encode "cr"

/-- Whether the row says the same as its statement about what is described. -/
def agrees (r : Row) (kind : String) (name : Bytes) : Bool :=
  r.kind.any (Statement.lower · == Utf8.encode kind) &&
    r.name.any (Statement.lower · == Statement.lower name)

end Row

/-- The page that the table begins with which describes the other ones. -/
def firstRoot : Nat := 1

def defineTable (s : Schema) (r : Row) (root : Nat) (name : Bytes) (rest : List Statement.Token) :
    Except DatabaseFault Schema :=
  let key := Statement.lower name
  if root == firstRoot || !r.agrees "table" name || r.table.all (Statement.lower · != key) then
    .error (r.fault none)
  else if (s.table? key).isSome then .error (r.fault (some (.tableExists name)))
  else
    match Statement.Definition.readColumns rest with
    | .error f => .error (r.fault (some (.refused f)))
    | .ok (columns, indexed) =>
      let table : TableEntry :=
        ⟨key, columns.map Statement.lower, indexed.map Statement.lower, root⟩
      .ok { s with tables := table :: s.tables }

def define (s : Schema) (r : Row) (root : Nat) : Except DatabaseFault Schema :=
  match Statement.Definition.read (Statement.tokens (r.statement.getD [])) with
  | .error f => .error (r.fault (some (.refused f)))
  | .ok (.table name rest) => s.defineTable r root name rest
  | .ok (.index name) =>
    let index := (Statement.lower name, root)
    if r.agrees "index" name then .ok { s with indexes := index :: s.indexes }
    else .error (r.fault none)
  | .ok (.view name) =>
    let table : TableEntry := { name := Statement.lower name }
    if r.agrees "view" name then .ok { s with tables := table :: s.tables }
    else .error (r.fault none)
  | .ok .other => .ok s

def hasOwnIndex (s : Schema) (name : Bytes) : Bool :=
  s.tables.any fun t =>
    (List.range t.indexed.length).any fun i => t.indexName i == Statement.lower name

/-- Adds what a row describes, in a file with the given number of pages. -/
def add (pages : Nat) (s : Schema) (r : Row) : Except DatabaseFault Schema :=
  if r.root.isNone then .error (r.fault none)
  else if r.isDefinition then
    match r.root? pages with
    | none => .error (r.fault (some .invalidRoot))
    | some root => s.define r root
  else
    match r.name with
    | none => .error (r.fault none)
    | some name =>
      if r.statement.any (!·.isEmpty) then .error (r.fault none)
      else if !s.hasOwnIndex name then .error (r.fault (some .orphanIndex))
      else
        match r.root? pages with
        | some root =>
          if 2 ≤ root then .ok { s with indexes := (Statement.lower name, root) :: s.indexes }
          else .error (r.fault (some .invalidRoot))
        | none => .error (r.fault (some .invalidRoot))

def latestFormat : Nat := 4

/-- The table that describes the other ones. -/
def tree (p : Pages) : Tree := ⟨p, false, 5⟩

def read (p : Pages) : Except DatabaseFault Schema :=
  if latestFormat < p.header.format then .error (.statement .unsupportedFormat)
  else
    let (rows, isWhole) := (tree p).rows firstRoot
    match rows.foldlM (fun s values => add p.header.pages s (.ofValues values)) {} with
    | .error f => .error f
    | .ok s => if isWhole then .ok s else .error .malformed

end Schema

end DatabaseFile
end Firmware
