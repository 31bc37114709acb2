import Firmware.IntelHex.Line
import Firmware.Uf2.Block

/-!
# Writing block files

A block file collects writes into pages of 256 bytes, one block each, in the order in which pages
are first touched. A block that holds part of a file carries the file's name and size; another one
carries the device family, if there is one.

The number of a block and the number of blocks are fixed when the file is serialized, and so is the
size of the file.
-/

namespace Firmware
namespace Uf2

structure Page where
  /-- The address divided by 256. -/
  number : UInt32
  flags : UInt32
  /-- The family, or the size of the file once that is known. -/
  word : UInt32
  fileName : Bytes
  data : Bytes
deriving DecidableEq, Repr

structure BlockFile where
  /-- When set, blocks hold a file instead of flash contents. -/
  fileName : Bytes := []
  fileSize : UInt32 := 0
  family : UInt32 := 0
  pages : List Page := []
  /-- The page written last. -/
  last : Option UInt32 := none
deriving DecidableEq, Repr

namespace BlockFile

/-- An empty file for a device family, zero for none. -/
def new (family : UInt32) : BlockFile := { family }

def pageNumbers (f : BlockFile) : List UInt32 := f.pages.map (·.number)

def lastAddress (f : BlockFile) : Option Nat := f.last.map (·.toNat * 256)

def pageOffset (address : UInt32) : Nat := (address &&& 0xff).toNat

def pageOf (address : UInt32) : UInt32 := address >>> 8

def find? (f : BlockFile) (number : UInt32) : Option Page := f.pages.find? (·.number == number)

/-! ## Writing -/

/-- A page that nothing was written to. -/
def newPage (f : BlockFile) (number flags : UInt32) : Page :=
  { number
    flags :=
      if !f.fileName.isEmpty then flags ||| flagFile
      else if f.family != 0 then flags ||| flagFamily
      else flags
    word := f.family
    fileName := f.fileName.take (blockSize - 4 - (payloadOffset + payloadSize))
    data := List.replicate payloadSize eraseValue }

def updatePage (number : UInt32) (g : Page → Page) : List Page → List Page
  | [] => []
  | p :: rest => if p.number == number then g p :: rest else p :: updatePage number g rest

def writePage (f : BlockFile) (address : UInt32) (data : Bytes) (flags : UInt32) : BlockFile :=
  let number := pageOf address
  let pages :=
    if (f.find? number).isSome then f.pages else f.pages ++ [f.newPage number flags]
  { f with
    pages := updatePage number
      (fun p => { p with data := p.data.overwrite (pageOffset address) data }) pages
    last := some number
    fileSize := max f.fileSize (data.length.toUInt32 + address) }

theorem pageOffset_lt (address : UInt32) : pageOffset address < payloadSize := by
  have h : pageOffset address ≤ 0xff := by
    simp only [pageOffset, UInt32.toNat_and]
    exact Nat.and_le_right
  simp only [payloadSize]
  omega

def cut (address : UInt32) (data : Bytes) : List (UInt32 × Bytes) :=
  let room := payloadSize - pageOffset address
  match _h : data.drop room with
  | [] => [(address, data)]
  | x :: rest => (address, data.take room) :: cut (address + room.toUInt32) (x :: rest)
termination_by data.length
decreasing_by
  have hlt := pageOffset_lt address
  have hlen := congrArg List.length _h
  simp only [List.length_drop, List.length_cons] at hlen ⊢
  omega

/-- Writes data at an address, making pages as needed. New pages carry `flags`. -/
def write (f : BlockFile) (address : UInt32) (data : Bytes) (flags : UInt32) : BlockFile :=
  (cut address data).foldl (fun f (address, data) => f.writePage address data flags) f

/-! ## Reading back -/

/-- The `n` bytes from `address` on; none when its page was never written. Pages that are missing
later on read as erased. -/
def read (f : BlockFile) (address : UInt32) (n : Nat) : Option Bytes :=
  match f.find? (pageOf address) with
  | none => none
  | some p =>
    let off := pageOffset address
    let count := min n (payloadSize - off)
    let head := (p.data.drop off).take count
    if n ≤ count || count == 0 then some head
    else
      match f.read (address + count.toUInt32) (n - count) with
      | some rest => some (head ++ rest)
      | none => some (head ++ List.replicate (n - count) eraseValue)
termination_by n
decreasing_by
  simp_all only [Bool.or_eq_true, decide_eq_true_eq, beq_iff_eq, not_or]
  omega

/-- `read` for any length. Where a page was written, a buffer has to be able to hold so many. -/
def readSigned (f : BlockFile) (address : UInt32) (n : Int) : Except Failure (Option Bytes) :=
  if (n < 0 || (largestBuffer : Int) < n) && (f.find? (pageOf address)).isSome then
    .error .outOfRange
  else .ok (f.read address n.toNat)

/-! ## Record lines -/

/-- Writes the data records of the lines, where `upper` are the digits of the upper address half
and `index` is the number of the first line. Gives the file as it is then, also after a failure. -/
def writeLines (f : BlockFile) (index : Nat) (upper : List Char) :
    List String → BlockFile × Option Failure
  | [] => (f, none)
  | line :: rest =>
    let upper := (IntelHex.linearDigits? line.toList).getD upper
    match IntelHex.wholeData? line with
    | none => f.writeLines (index + 1) upper rest
    | some (low, data) =>
      let address := String.ofList (upper ++ low)
      match Numeral.read (.fixed 16) 32 (Utf8.encode address) with
      | .error e => (f, some (.badLineAddress index address e))
      | .ok n =>
        match Hexadecimal.decodeChars data with
        | .error e => (f, some (.badLineData index e))
        | .ok b => (f.write n.toUInt32 b 0).writeLines (index + 1) upper rest

/-- Writes the data records of record lines, minding records that set the upper address half. -/
def writeHex (f : BlockFile) (lines : List String) : BlockFile × Option Failure :=
  f.writeLines 0 ['0', '0', '0', '0'] lines

/-! ## Serializing -/

/-- Fixes the size of the file in the pages that hold part of one. -/
def finalPages (f : BlockFile) : List Page :=
  if f.fileName.isEmpty then f.pages else f.pages.map fun p => { p with word := f.fileSize }

def encodePage (total index : Nat) (p : Page) : Bytes :=
  [magicStart0, magicStart1, p.flags, p.number <<< 8, payloadSize.toUInt32, index.toUInt32,
    total.toUInt32, p.word].flatMap Bytes.ofWord32 ++
  p.data ++
  p.fileName.resize (blockSize - 4 - (payloadOffset + payloadSize)) 0 ++
  Bytes.ofWord32 magicEnd

def serialize (f : BlockFile) : Bytes :=
  let pages := f.finalPages
  (pages.mapIdx (encodePage pages.length)).flatten

/-- Moves all pages of `g` behind those of `f`; `g` is left empty and without a name. -/
def absorb (f g : BlockFile) : BlockFile × BlockFile :=
  ({ f with pages := f.pages ++ g.finalPages },
   { g with fileName := [], pages := [], last := none })

/-- Joins files into one. The files are left empty. -/
def concat (fs : List BlockFile) : BlockFile × List BlockFile :=
  fs.foldl (fun (r, emptied) g =>
    let (r, g) := r.absorb g
    (r, emptied ++ [g])) (new 0, [])

end BlockFile
end Uf2
end Firmware
