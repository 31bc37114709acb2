import Firmware.Failure
import Firmware.Text.Blank

/-!
# Storage cells

A cell is a place that a procedure reads and writes: a local, an argument, a closure capture or a
global. Cells print under the name they were declared with and have a second name for the
assembler, which is made of identifier characters only.
-/

namespace Firmware

inductive Place where
  /-- A local with a name of its own. -/
  | declared
  /-- A local made up while building. -/
  | temporary
  | argument
  /-- A value copied into a closure. -/
  | capture
  | global
deriving DecidableEq, Repr

structure Cell where
  place : Place
  index : Int
  name : String
  /-- The count of declarations in the procedure up to this one. -/
  serial : Nat
  /-- Holds a reference-counted heap value. -/
  counted : Bool
  /-- Used by a closure. -/
  captured : Bool
  /-- Written after it was captured. -/
  written : Bool
  /-- Lives outside of any procedure. -/
  isGlobal : Bool
deriving DecidableEq, Repr

namespace Cell

def isTemporary (c : Cell) : Bool := c.place == .temporary

/-- Whether the cell lives in a heap box: a declared local that a closure captures and that is
written afterwards. The runtime calls for boxes do all of its reference counting. -/
def isBoxed (c : Cell) : Bool := c.place == .declared && c.captured && c.written

/-- Whether reads and writes of the cell count references themselves. -/
def countsHere (c : Cell) : Bool := c.counted && !c.isBoxed

def render (c : Cell) : String :=
  let name := if c.name.isEmpty && !c.isTemporary then "?" else c.name
  if c.place == .argument then "[ARG " ++ name ++ "]" else "[" ++ name ++ "]"

/-- The name for the assembler. Arguments are named by position only, so that the name is the same
in every override of a method. -/
def uniqueName (c : Cell) : String :=
  match c.place with
  | .argument => "arg" ++ Numeral.decimal c.index
  | .temporary => c.name ++ "___U" ++ Numeral.decimal c.index
  | _ => Text.identifier c.name ++ "___" ++ Numeral.decimal c.serial

end Cell
end Firmware
