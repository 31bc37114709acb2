import Firmware.Template.Basic

/-!
# Assemblers

An assembler turns the source of a program into words. It is a parameter of a build, and may have
effects of its own; one that has none is a function of its arguments. The source is given as bytes,
since it need not be well-formed text.
-/

namespace Firmware

structure Assembled where
  words : Words
  /-- Labels by name, as byte offsets from the start of the words. -/
  labels : List (String × UInt32) := []
  /-- The end of the comm section; zero when there is none. -/
  commEnd : UInt32 := 0
  /-- The source with annotations; empty to keep the source as it is. -/
  listing : String := ""
deriving DecidableEq, Repr

/-- An assembler: source and template to words. The template tells the addresses of the runtime's
symbols. -/
abbrev Assembler (m : Type → Type) := Bytes → Template → m (Except Failure Assembled)

def Assembler.occurs (pattern : Bytes) : Bytes → Bool
  | [] => pattern.isEmpty
  | b :: rest => pattern.isPrefixOf (b :: rest) || occurs pattern rest

def Assembler.definesChecksums (source : Bytes) : Bool :=
  occurs (Utf8.encode "__flash_checksums:") source

/-- The assembler of a program that is machine code already. Such a program has no checksum block.
-/
def Assembler.ofWords {m : Type → Type} [Monad m] (words : Words) : Assembler m := fun source _ =>
  return if definesChecksums source then .error .checksumOfMachineCode else .ok { words }

end Firmware
