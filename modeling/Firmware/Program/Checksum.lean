import Firmware.Program.Basic
import Firmware.Sha256

/-!
# The checksum block

The checksum block lets the boot loader verify template and program apart from each other. It is
assembled at the very end of the program, then cut off, completed with the length and the hash of
the program, and written to an address of its own.
-/

namespace Firmware
namespace Checksum

/-- The word that opens the block. -/
def magic : UInt32 := 0x87eeb07c

/-- The number of 32-bit words in the block. -/
def size : Nat := 8

def label : String := "__flash_checksums"

/-- The least exponent of two that reaches the page size. -/
def pageBits (page : UInt32) : Nat :=
  ((List.range 32).find? fun k => page.toNat ≤ 1 <<< k).getD 32

/-- The pages of the template that the block covers, as first page and number. The block itself is
not covered. -/
def templatePages (t : Template) : UInt32 × UInt32 :=
  let page := t.target.pageSize
  let programPage := t.codeStartPadded / page
  let block := t.target.flashChecksumAddress
  if block < t.codeStartPadded then
    let first := (block + 32 + page - 1) / page
    (first, programPage - first)
  else (0, programPage)

/-- The assembly of the block, which needs the hash of the source. Both hashes are cut to eight
bytes, also where that cuts a character in two, so the assembly is given as bytes. -/
def stub (t : Template) (sourceHash : String) : Except Failure Bytes :=
  let digits := Utf8.takeBytes 8 sourceHash
  if digits.length < 8 then .error .sourceHashMissing
  else
    match Numeral.read (.fixed 16) 32 digits with
    | .error f => .error (.badSourceHash digits f)
    | .ok n =>
      let mark : UInt32 := (n.toUInt32 &&& 0xffffff00) ||| (pageBits t.target.pageSize).toUInt32
      let (first, count) := templatePages t
      let number (w : UInt32) : String := Numeral.decimal w.toNat
      let opening := "\n    .balign 4\n__end_marker:\n    .word " ++ number mark ++ "\n\n" ++
        "; ------- this will get removed from the final binary ------\n" ++
        label ++ ":\n" ++
        "    .word 0x" ++ Numeral.hex magic.toNat ++ " ; magic\n" ++
        "    .word __end_marker ; end marker position\n" ++
        "    .word " ++ number mark ++ " ; end marker\n" ++
        "    ; template region\n" ++
        "    .short " ++ number first ++ ", " ++ number count ++ "\n" ++
        "    .word 0x"
      let middle := "\n    ; user region\n" ++
        "    .short " ++ number (t.codeStartPadded / t.target.pageSize) ++ ", 0xffff\n" ++
        "    .word 0x"
      let closing := "\n    .word 0x0 ; terminator\n"
      .ok (Utf8.encode opening ++ Utf8.takeBytes 8 t.hashText ++ Utf8.encode middle ++ digits ++
        Utf8.encode closing)

/-- The block with the length of the program in pages and the first word of its hash. -/
def complete (t : Template) (block program : Words) : Words :=
  let page := t.target.pageSize.toNat
  let pages := (program.length * 2 + page - 1) / page
  let h := (Sha256.digest (program.toBytes)).take 4
  let word := Bytes.number .big 4 h
  ((block.set 11 pages.toUInt16).set 12 word.toUInt16).set 13 (word / 65536).toUInt16

/-- Cuts the block off the end of the words. Gives the program and the completed block. -/
def extract (t : Template) (words : Words) (labels : List (String × UInt32)) :
    Except Failure (Words × Words) :=
  let n := size * 2
  match labels.lookup label with
  | none => .error .noChecksumBlock
  | some position =>
    if words.length < n || (position / 2).toNat != words.length - n then .error .noChecksumBlock
    else
      let program := words.take (words.length - n)
      .ok (program, complete t (words.drop (words.length - n)) program)

end Checksum
end Firmware
