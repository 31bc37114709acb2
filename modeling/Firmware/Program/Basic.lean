import Firmware.Dispatch.ClassTable
import Firmware.Procedure.Resolve
import Firmware.Template.Basic

/-!
# Programs

A program is everything that has been generated for it: the assembly of its procedures, its
classes, literals and configuration. What a build works out on the way is kept beside it, because
the steps of a build hand it on to each other.
-/

namespace Firmware

structure ProcedureCode where
  name : String
  /-- The label of the entry, by which the procedure is measured. -/
  label : String
  location : String
  assembly : String
deriving DecidableEq, Repr

def ProcedureCode.ofResolved (r : Resolved) (assembly : String) : ProcedureCode :=
  ⟨r.procedure.fullName, r.procedure.label, r.procedure.location, assembly⟩

structure Program where
  name : String := ""
  procedures : List ProcedureCode := []
  /-- Routines that support the runtime. -/
  helpers : String := ""
  /-- Inline assembly of the program. -/
  userAssembly : String := ""
  /-- Bodies by label. -/
  codeHelpers : List (String × String) := []
  arithmetic : String := ""
  classes : List ClassInfo := []
  interfaceMembers : List String := []
  memberLabels : List (String × String) := []
  /-- Rendered pools of literals. -/
  literals : List String := []
  config : List ConfigEntry := []
  perfCounters : List String := []
  globalsWords : Int := 0
  nonPointerGlobals : Int := 0
  methodCount : Int := 0
  virtualMethodCount : Int := 0
  breakpoints : List Breakpoint := []
  embedMeta : String := ""
  /-- The compressed sources to keep with the program. -/
  embedSource : Option Bytes := none
deriving DecidableEq, Repr

/-- What a build has worked out so far. -/
structure BuildState where
  commSize : UInt32 := 0
  /-- The hash of the assembly, in hexadecimal digits. -/
  sourceHash : String := ""
  /-- The packed source that goes outside of the program. -/
  packedSource : Option Bytes := none
  checksumBlock : Option Words := none
  tableStats : TableStats := {}
deriving DecidableEq, Repr

namespace Program

/-- Adds the code of a finished procedure and registers its breakpoints. -/
def addResolved (p : Program) (r : Resolved) (assembly : String) : Program :=
  { p with
    procedures := p.procedures ++ [.ofResolved r assembly]
    breakpoints := p.breakpoints ++ r.body.breakpoints }

end Program
end Firmware
