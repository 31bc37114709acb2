import Firmware.BootImage.Basic
import Firmware.Executable.Blob
import Firmware.IntelHex.Line
import Firmware.Target
import Firmware.Text.LetterCase

/-!
# Templates

A template that has been read: its lines or its binary payload, where the program goes, and the
addresses of the runtime functions. A template is not changed by linking.
-/

namespace Firmware

/-- The functions of a template by the names under which they are looked up. -/
abbrev FunctionTable := List (String × FunctionInfo)

namespace FunctionTable

def put (t : FunctionTable) (name : String) (f : FunctionInfo) : FunctionTable :=
  List.filter (·.1 != name) t ++ [(name, f)]

def insert (t : FunctionTable) (f : FunctionInfo) : FunctionTable := t.put f.name f

def find? (t : FunctionTable) (name : String) : Option FunctionInfo := List.lookup name t

/-- Clears the address of a function. A name that the table does not have yet gets a function
without formats. -/
def clear (t : FunctionTable) (name : String) : FunctionTable :=
  let f := (t.find? name).getD { name := "", argsFormat := [] }
  t.put name { f with value := 0 }

def sorted (t : FunctionTable) : FunctionTable := List.mergeSort t fun a b => a.1 ≤ b.1

end FunctionTable

/-- A template that has been read. -/
structure Template where
  sha : String
  lines : List String := []
  codeStart : UInt32 := 0
  /-- The page-aligned address that programs are linked at. -/
  codeStartPadded : UInt32 := 0
  /-- The index of the line in front of which the program goes; negative when there is none. -/
  codeStartLine : Int := -1
  /-- The number of bytes between the code start and the program. -/
  codePadding : UInt32 := 0
  /-- The place of the jump table: an address, or an offset in a blob. -/
  jumpTable : UInt32 := 0
  /-- The index of the line of the jump table; negative when there is none. -/
  jumpTableLine : Int := -1
  commBase : UInt32
  functions : FunctionTable := []
  blob : Option Blob := none
  boot : Option BootImage := none
  /-- The offset of the function table's marker in the read-only data of a boot image; negative
  when there is none. -/
  markerOffset : Int := -1
  target : Target
deriving DecidableEq, Repr

namespace Template

def commBaseSymbol : String := "_pxt_comm_base"

def isVm (t : Template) : Bool := !t.target.isNative

/-- The address of a runtime symbol. -/
def address? (t : Template) (name : String) : Option UInt32 :=
  if name == commBaseSymbol then some t.commBase
  else (t.functions.find? name).map (·.value)

/-- The sixteen characters of the template's hash that images show, as bytes: cut or completed with
zeros, in upper case. A character cut in two shows as U+FFFD. -/
def hashText (t : Template) : String :=
  let head := Utf8.takeBytes 16 t.sha
  let text := Utf8.display head
  String.ofList ((text.toList ++ List.replicate (16 - head.length) '0').map Text.upper)

/-- The assembler directive that places the program. -/
def startDirective (t : Template) : String :=
  "    .startaddr 0x" ++ Numeral.hex t.codeStartPadded.toNat ++ "\n"

/-- The 16 bits that a dispatch table's address is stored in. -/
def encodeVtable (t : Template) (address : UInt32) : Except Failure UInt32 :=
  let shift := t.target.vtableShift
  let v := shiftRight32 address shift
  if 0xffff ≤ v || shiftLeft32 v shift != address then
    .error (.vtableNotEncodable address shift)
  else .ok v

def format (t : Template) : String :=
  match t.boot, t.isVm, t.blob with
  | some _, _, _ => "ESP32 image"
  | none, true, _ => "VM bytecode"
  | none, false, some b => if b.isExecutable then "ELF" else "flat binary"
  | none, false, none => "Intel HEX"

end Template
end Firmware
