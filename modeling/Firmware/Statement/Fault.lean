import Firmware.Text.Utf8

/-!
# Refused statements

Why a statement is not carried out. Texts that a statement holds are shown the way they stand in
it, with their quotes.
-/

namespace Firmware
namespace Statement

/-- Why a statement is refused. -/
inductive Fault where
  /-- The statement cannot go on with this text. -/
  | unexpected (text : Bytes)
  /-- The statement ends too early. -/
  | incomplete
  | unrecognized (text : Bytes)
  | unknownDatabase (name : Bytes)
  | unsupportedEncoding (name : Bytes)
  | unsupportedFormat
  | noSuchTable (name : Bytes)
  | noSuchColumn (name : String)
  | unwritableDirectory
  | indexExists (name : String)
deriving DecidableEq, Repr

def Fault.message : Fault → String
  | .unexpected text => "near \"" ++ Utf8.display text ++ "\": syntax error"
  | .incomplete => "incomplete input"
  | .unrecognized text => "unrecognized token: \"" ++ Utf8.display text ++ "\""
  | .unknownDatabase name => "unknown database " ++ Utf8.display name
  | .unsupportedEncoding name => "unsupported encoding: " ++ Utf8.display name
  | .unsupportedFormat => "unsupported file format"
  | .noSuchTable name => "no such table: " ++ Utf8.display name
  | .noSuchColumn name => "no such column: " ++ name
  | .unwritableDirectory => "not a writable directory"
  | .indexExists name => "there is already an index named " ++ name

/-- Why the description of a table or an index in a file cannot be used. -/
inductive SchemaFault where
  /-- An index without a description of its own belongs to no table. -/
  | orphanIndex
  /-- There is no such page to begin with. -/
  | invalidRoot
  | tableExists (name : Bytes)
  /-- The description is refused as a statement. -/
  | refused (fault : Fault)
deriving DecidableEq, Repr

def SchemaFault.message : SchemaFault → String
  | .orphanIndex => "orphan index"
  | .invalidRoot => "invalid rootpage"
  | .tableExists name => "table " ++ Utf8.display name ++ " already exists"
  | .refused fault => fault.message

end Statement
end Firmware
