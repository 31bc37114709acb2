import Firmware.DatabaseFile.Record

/-!
# Tables and indexes

A table or an index is a tree of pages. A leaf holds rows and every other page leads to pages below
it; in an index, a row stands between them. A row that is too long for its page goes on in a chain
of further pages. Where the pages do not fit together the tree ends early; the rows in front of that
place are still read.
-/

namespace Firmware
namespace DatabaseFile

/-- The pages of a database file. -/
structure Pages where
  header : Header
  file : Bytes

/-- The page of a number, completed with zeros. -/
def Pages.page? (p : Pages) (n : Nat) : Option Bytes :=
  if n == 0 || p.header.pages < n then none
  else some (Bytes.resize (p.file.drop ((n - 1) * p.header.pageSize)) p.header.pageSize 0)

/-- Bytes of a row that go on in a chain of pages, of which at most `limit` are read. -/
def Pages.chained? (p : Pages) : (limit number remaining : Nat) → Option Bytes
  | 0, _, remaining => if remaining == 0 then some [] else none
  | limit + 1, number, remaining =>
    if remaining == 0 then some []
    else do
      let page ← p.page? number
      let part := (page.drop 4).take (min remaining (p.header.usableSize - 4))
      let rest ← p.chained? limit (Header.field page 0 4) (remaining - part.length)
      return part ++ rest

/-! ## Pages of trees -/

/-- A page of a tree. Its cells are given by their positions. -/
inductive TreePage where
  | leaf (cells : List Nat)
  /-- Every cell leads to a page below, and a last page stands apart. -/
  | inner (cells : List Nat) (last : Nat)

/-- Where a page begins: the first one has the header of the file in front. -/
def pageStart (number : Nat) : Nat := if number == 1 then 100 else 0

def cellCount (number : Nat) (page : Bytes) : Nat := Header.field page (pageStart number + 3) 2

structure Tree where
  pages : Pages
  isIndex : Bool
  /-- The number of values of a row that count. -/
  width : Nat

namespace Tree

/-- The marks of a leaf and of another page. -/
def marks (t : Tree) : UInt8 × UInt8 := if t.isIndex then (10, 2) else (13, 5)

def page? (t : Tree) (number : Nat) (page : Bytes) : Option TreePage :=
  let size := t.pages.header.pageSize
  let start := pageStart number
  let count := cellCount number page
  let cells (head : Nat) := (List.range count).map fun i =>
    Header.field page (start + head + 2 * i) 2 % size
  if (size - 8) / 6 < count then none
  else if page[start]? == some t.marks.1 then some (.leaf (cells 8))
  else if page[start]? == some t.marks.2 then
    some (.inner (cells 12) (Header.field page (start + 8) 4))
  else none

/-! ## Rows -/

/-- How many bytes of a row with the given length stand on the page itself. -/
def residentLength (t : Tree) (length : Nat) : Nat :=
  let usable := t.pages.header.usableSize
  let most := if t.isIndex then (usable - 12) * 64 / 255 - 23 else usable - 35
  let least := (usable - 12) * 32 / 255 - 23
  let fitted := least + (length - least) % (usable - 4)
  if length ≤ most then length else if fitted ≤ most then fitted else least

/-- The bytes of the row at a position of a page. In a table, the number of the row stands in front
of them. The head of a row without bytes is looked for all the same and has to be empty. -/
def payload? (t : Tree) (page : Bytes) (pos : Nat) : Option Bytes := do
  let cell := page.drop pos
  let (length, rest) ← readVarint? cell
  let rest ← if t.isIndex then some rest else (readVarint? rest).map (·.2)
  let resident := t.residentLength length
  let (part, behind) ← Bytes.split? resident rest
  if length == 0 && behind.head?.any (· != 0) then none
  else if resident == length then return part
  else if t.pages.header.usableSize < pos + (cell.length - rest.length) + resident then none
  else
    let limit := t.pages.header.pages
    let chain ← t.pages.chained? limit (Header.field behind 0 4) (length - resident)
    return part ++ chain

/-- The rows that have been read, the last one first. It is an error when the tree ends early. -/
abbrev Walk := Except (List (List Value)) (List (List Value))

/-- Adds the row at a position of a page to those that have been read. -/
def addRow (t : Tree) (page : Bytes) (rows : List (List Value)) (pos : Nat) : Walk :=
  match (t.payload? page pos).bind (readRecord? t.width) with
  | some row => .ok (row.map (·.narrow t.pages.header.wideText) :: rows)
  | none => .error rows

/-- Adds the rows of the pages from `number` on to those that have been read. Only the page that a
tree begins with can be empty, and only the first page of the file can lead to no more than one
page. -/
def addFrom (t : Tree) (isRoot : Bool) :
    (depth number : Nat) → (rows : List (List Value)) → Walk
  | 0, _, rows => .error rows
  | depth + 1, number, rows =>
    match t.pages.page? number with
    | none => .error rows
    | some page =>
      match t.page? number page with
      | none => .error rows
      | some (.leaf cells) =>
        if cells.isEmpty && !isRoot then .error rows else cells.foldlM (t.addRow page) rows
      | some (.inner cells last) =>
        if cells.isEmpty && !(isRoot && number == 1) then .error rows
        else do
          let rows ← cells.foldlM (fun rows pos => do
            let rows ← t.addFrom false depth (Header.field page pos 4) rows
            if t.isIndex then t.addRow page rows (pos + 4) else return rows) rows
          t.addFrom false depth last rows

def deepest : Nat := 20

/-- The rows of a tree by the page it begins with, and whether it was read to its end. -/
def rows (t : Tree) (root : Nat) : List (List Value) × Bool :=
  match t.addFrom true deepest root [] with
  | .ok rows => (rows.reverse, true)
  | .error rows => (rows.reverse, false)

/-! ## Room for rows -/

/-- The last leaf of a tree with its number, where its next row goes. -/
def lastLeaf? (t : Tree) : (depth number : Nat) → Option (Nat × Bytes)
  | 0, _ => none
  | depth + 1, number => do
    let page ← t.pages.page? number
    match ← t.page? number page with
    | .leaf _ => return (number, page)
    | .inner _ last => t.lastLeaf? depth last

/-- The bytes in the free blocks of a page from a position on. Blocks stand in order, and no two of
them touch. -/
def freeBytes? (page : Bytes) (usable : Nat) : (limit pos : Nat) → Option Nat
  | 0, _ => none
  | limit + 1, pos =>
    let next := Header.field page pos 2
    let size := Header.field page (pos + 2) 2
    if usable - 4 < pos then none
    else if pos + size + 3 < next then (freeBytes? page usable limit next).map (· + size)
    else if next != 0 || usable < pos + size then none
    else some size

def addsUp (usable number : Nat) (page : Bytes) : Bool :=
  let start := pageStart number
  let field (pos n : Nat) := Header.field page (start + pos) n
  let top := if field 5 2 == 0 then 65536 else field 5 2
  let first := field 1 2
  let blocks := if first == 0 then some 0
    else if first < top then none
    else freeBytes? page usable usable first
  blocks.any fun n =>
    let free := n + field 7 1 + top
    free ≤ usable && start + 8 + 2 * cellCount number page ≤ free

/-- Whether a row can be added to a tree as far as the page it goes to is concerned. -/
def hasSoundEnd (t : Tree) (root : Nat) : Bool :=
  (t.lastLeaf? deepest root).any fun (number, page) =>
    addsUp t.pages.header.usableSize number page

end Tree
end DatabaseFile
end Firmware
