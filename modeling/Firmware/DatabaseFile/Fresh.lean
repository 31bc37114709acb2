import Firmware.DatabaseFile.Header

/-!
# New database files

The file of a database that has just been made: three pages, of which the first one describes the
table of templates and its index, and the other two are the empty table and the empty index. The
description of the table took the place of a shorter row, whose eight bytes stay free at the end of
the page.
-/

namespace Firmware
namespace DatabaseFile
namespace Fresh

/-- Numbers of four bytes, highest first. -/
def words (ws : List UInt32) : Bytes := ws.flatMap (Bytes.ofWord32In .big)

/-- The version of the library that writes the file. -/
def writer : UInt32 := 3046000

/-- The header: page size, versions and fractions; one change, three pages and no free ones; the
first schema, in format 4; text in UTF-8; no settings; and the change that the page count is of. -/
def header : Bytes :=
  Header.magic ++ [0x10, 0, 1, 1, 0] ++ Header.fractions ++
    words [1, 3, 0, 0, 1, 4, 0, 0, 1, 0, 0, 0, 0, 0, 0, 0, 0, 1, writer]

/-- The statement that makes the table. -/
def statement : String :=
  "CREATE TABLE templates (\n\t\tsha TEXT PRIMARY KEY,\n\t\tdata BLOB NOT NULL\n\t)"

/-- The row of the table: its length, its number, the types of its values, and the values. -/
def tableRow : Bytes :=
  [0x67, 1, 7, 0x17, 0x1F, 0x1F, 1, 0x81, 0x1D] ++ Utf8.encode "tabletemplatestemplates" ++ [2] ++
    Utf8.encode statement

def indexRow : Bytes :=
  [0x31, 2, 6, 0x17, 0x45, 0x1F, 1, 0] ++
    Utf8.encode "indexsqlite_autoindex_templates_1templates" ++ [3]

/-- The free bytes at the end of the first page. -/
def freeBlock : Bytes := [0, 0, 0, 8, 0, 0, 0, 0]

def page (head rows : Bytes) : Bytes :=
  head ++ List.replicate (Header.defaultPageSize - head.length - rows.length) 0 ++ rows

/-- The first page. Its leaf has two rows and a free block, given by their positions. -/
def firstPage : Bytes :=
  page (header ++ [13, 0x0F, 0xF8, 0, 2, 0x0F, 0x5C, 0, 0x0F, 0x5C, 0x0F, 0xC5])
    (tableRow ++ indexRow ++ freeBlock)

/-- A leaf without rows. -/
def emptyLeaf (mark : UInt8) : Bytes := page [mark, 0, 0, 0, 0, 0x10, 0, 0] []

def file : Bytes := firstPage ++ emptyLeaf 13 ++ emptyLeaf 10

end Fresh
end DatabaseFile
end Firmware
