import Firmware.Template.Basic
import Firmware.Text.Lines

/-!
# External functions

A program may declare a function whose body is elsewhere: in the runtime, or behind a label of the
program's assembly sources. A body that no assembly label defines is looked up in the template, and
the declaration is checked against the formats that the template records for it.
-/

namespace Firmware
namespace Template

def lineLabel? (line : List Char) : Option String :=
  let cs := line.dropWhile Text.isSeparator
  let name := cs.takeWhile Text.isWord
  match cs.dropWhile Text.isWord with
  | ':' :: _ => if name.isEmpty then none else some (String.ofList name)
  | _ => none

def assemblyLabels (sources : List String) : List String :=
  (sources.flatMap fun source => (Text.lines source.toList).filterMap lineLabel?).eraseDups

/-- A declaration of a function whose body is the symbol `body`. -/
structure ExternalFunction where
  name : String
  body : String
  returnsValue : Bool
  argumentCount : Int
deriving DecidableEq, Repr

def builtinBodies : List String := ["TD_ID", "TD_NOOP", "ENUM_GET"]

/-- Checks a declaration against the template's function; `labels` are defined by the program. -/
def checkExternal (t : Template) (labels : List String) (e : ExternalFunction) : Option Failure :=
  if builtinBodies.contains e.body || labels.contains e.body then none
  else
    let name := e.name ++ "(...) (shim=" ++ e.body ++ ")"
    match t.functions.find? e.body with
    | none => some (.externalNotFound name)
    | some f =>
      let isProcedure := f.argsFormat.head? == some "V"
      let declared : Int := ((f.argsFormat.length - 1 : Nat) : Int)
      if !e.returnsValue && !isProcedure then some (.externalIsFunction name)
      else if e.returnsValue && isProcedure then some (.externalIsProcedure name)
      else if declared < e.argumentCount then some (.tooManyArguments name)
      else if e.argumentCount != declared then
        some (.tooFewArguments name e.argumentCount f.argsFormat)
      else none

end Template
end Firmware
