import Firmware.Failure

/-!
# Targets and extensions

A target says how programs are built for a device. An extension brings the runtime template that
programs are linked with, and the list of functions whose addresses the template's jump table
holds, in order.
-/

namespace Firmware

/-- How programs are built for a device. -/
structure Target where
  /-- The kind of code: a native one, or bytecode for a virtual machine. -/
  nativeType : String
  pageSize : UInt32
  /-- The address that ends the flash for programs; zero when all of it may be used. -/
  flashUsableEnd : UInt32
  /-- Where the checksum block goes; zero when there is none. -/
  flashChecksumAddress : UInt32
  shortPointers : Bool
  runtimeIsArm : Bool
  useUf2 : Bool
  useBootImage : Bool
  family : UInt32
  /-- Whether the record that ends a file has to be the last line. -/
  moveHexEnd : Bool
  vtableShift : Nat
  gc : Bool
  noSourceInFlash : Bool
  outputName : String
  sizeReport : Bool
deriving DecidableEq, Repr

namespace Target

def isNative (t : Target) : Bool := t.nativeType != "vm"

def wantsThumb (t : Target) : Bool := !t.runtimeIsArm && t.nativeType == "thumb"

def pointerDigits (t : Target) : Nat := if t.shortPointers then 4 else 8

end Target

/-- A runtime function: its name and the formats of its result and arguments. -/
structure FunctionInfo where
  name : String
  argsFormat : List String
  value : UInt32 := 0
deriving DecidableEq, Repr

/-- The template of an extension and what is expected of it. -/
structure Extension where
  /-- The hash that identifies the template; may be empty. -/
  sha : String
  template : String
  /-- The lines of the template. -/
  hex : List String
  commBase : UInt32
  /-- Not empty when the template cannot be used. -/
  disabledBy : String
  functions : List FunctionInfo
deriving DecidableEq, Repr

structure ConfigEntry where
  name : String
  key : Int
  value : Int
deriving DecidableEq, Repr

end Firmware
