import Firmware.Failure

/-!
# Headers of database files

A database file is a sequence of pages of equal size, and the first hundred bytes of the first page
are its header. A file without pages is an empty database and needs no header; so is one of a
single byte.
-/

namespace Firmware
namespace DatabaseFile

/-- What the header says about a file. -/
structure Header where
  pageSize : Nat
  /-- The part of a page that is used. -/
  usableSize : Nat
  pages : Nat
  /-- The first of the pages that list free ones. -/
  freeList : Nat := 0
  freePages : Nat := 0
  /-- The version of the format of tables. -/
  format : Nat := 4
  /-- The last page that a table begins with; zero where no page says where others are. -/
  largestRoot : Nat := 0
  wideText : Option ByteOrder := none
  isFrozen : Bool := false
deriving DecidableEq, Repr

namespace Header

/-- The number of `n` bytes at a position; bytes behind the end are zero. -/
def field (file : Bytes) (pos n : Nat) : Nat :=
  Bytes.number .big n (Bytes.resize (file.drop pos) n 0)

/-- The text that every file begins with. -/
def magic : Bytes := Utf8.encode "SQLite format 3" ++ [0]

/-- The parts of a page that tables may fill, which are fixed. -/
def fractions : Bytes := [64, 32, 32]

def defaultPageSize : Nat := 4096

/-- The smallest part of a page that can be used. -/
def leastUsable : Nat := 480

/-- The versions of the file format that can be read. -/
def knownVersion : Nat := 2

/-- The size of a page that the header gives; its low byte stands for the high end. -/
def statedPageSize (file : Bytes) : Nat := field file 16 1 * 0x100 + field file 17 1 * 0x10000

/-- Whether pages can have a size: a power of two from 512 to 65536. -/
def isPageSize (n : Nat) : Bool := (List.range 8).any fun i => n == 512 <<< i

/-- The number of pages in a file; the last one may be cut short. -/
def pagesIn (file : Bytes) : Nat :=
  let stated := statedPageSize file
  let size := if isPageSize stated then stated else defaultPageSize
  if file.length ≤ 1 then 0 else (file.length + size - 1) / size

/-- The number of pages that a file has. The header's own count holds when it was written along
with the last change. -/
def pageCount (file : Bytes) : Nat :=
  let stated := field file 28 4
  if stated == 0 || field file 24 4 != field file 92 4 then pagesIn file else stated

def textOrder (encoding : Nat) : Option ByteOrder :=
  match encoding % 4 with
  | 2 => some .little
  | 3 => some .big
  | _ => none

def read (file : Bytes) : Except DatabaseFault Header :=
  let pageSize := statedPageSize file
  let usableSize := pageSize - field file 20 1
  let version := field file 19 1
  if file.take 16 != magic then .error .notDatabase
  else if knownVersion < version then .error .notDatabase
  else if (file.drop 21).take 3 != fractions then .error .notDatabase
  else if !isPageSize pageSize then .error .notDatabase
  else if pagesIn file < pageCount file then .error .malformed
  else if usableSize < leastUsable then .error .notDatabase
  else
    .ok
      { pageSize, usableSize
        pages := pageCount file
        freeList := field file 32 4
        freePages := field file 36 4
        format := field file 47 1
        largestRoot := field file 52 4
        wideText := textOrder (field file 56 4)
        isFrozen := knownVersion < field file 18 1 }

/-- Whether the pages that the header speaks of are there: the last one that a table begins with and
the first one that lists free pages. -/
def hasSoundCounts (h : Header) : Bool :=
  h.largestRoot ≤ h.pages &&
    (h.freePages == 0 || (h.freePages < h.pages && 0 < h.freeList && h.freeList ≤ h.pages))

def hasLog (file : Bytes) : Bool :=
  pageCount file != 0 && file.take 16 == magic && field file 19 1 == 2

end Header
end DatabaseFile
end Firmware
