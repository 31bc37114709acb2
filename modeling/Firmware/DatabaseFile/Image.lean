import Firmware.DatabaseFile.Schema

/-!
# Images of databases

All that counts of a database file, read at once: what its header allows, what it says about its
tables, and the hashes of the templates in it.
-/

namespace Firmware
namespace DatabaseFile

structure StoredTable where
  columns : List Bytes
  /-- The hashes of the rows; one can be missing. -/
  hashes : List (Option Bytes)
  isWhole : Bool := true

/-- What a database file holds. -/
structure Image where
  pages : Nat := 0
  freePages : Nat := 0
  /-- The pages that the header speaks of are there. -/
  hasSoundCounts : Bool := true
  /-- The page that describes the next table can take its row. -/
  hasSoundEnd : Bool := true
  isAutoVacuum : Bool := false
  isFrozen : Bool := false
  schema : Except DatabaseFault Schema := .ok {}
  templates : Option StoredTable := none

namespace Image

def tableName : String := "templates"

/-- The values in a column of a table. They are read from an index where there is one for it. -/
def column (p : Pages) (s : Schema) (t : TableEntry) (name : Bytes) : List Value × Bool :=
  let index := (t.indexed.findIdx? (· == name)).bind fun i => s.indexes.lookup (t.indexName i)
  match index with
  | some root =>
    let (rows, isWhole) := Tree.rows ⟨p, true, 1⟩ root
    (rows.map (valueAt · 0), isWhole)
  | none =>
    let i := t.columns.findIdx (· == name)
    let (rows, isWhole) := Tree.rows ⟨p, false, i + 1⟩ t.root
    (rows.map (valueAt · i), isWhole)

def templatesOf (p : Pages) (s : Schema) : Option StoredTable :=
  (s.table? (Utf8.encode tableName)).map fun t =>
    let (values, isWhole) := column p s t (Utf8.encode "sha")
    { columns := t.columns, hashes := values.map Value.text?, isWhole }

def read (file : Bytes) : Except DatabaseFault Image :=
  if Header.pageCount file == 0 then .ok {}
  else
    (Header.read file).map fun header =>
      let pages : Pages := ⟨header, file⟩
      let schema := Schema.read pages
      { pages := header.pages
        freePages := header.freePages
        hasSoundCounts := header.hasSoundCounts
        hasSoundEnd := (Schema.tree pages).hasSoundEnd Schema.firstRoot
        isAutoVacuum := header.largestRoot != 0
        isFrozen := header.isFrozen
        schema
        templates := schema.toOption.bind (templatesOf pages) }

end Image
end DatabaseFile
end Firmware
