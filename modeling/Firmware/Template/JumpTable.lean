import Firmware.Template.Basic

/-!
# Jump tables

The jump table of a template holds one pointer for each expected function, in order. Pointers are
taken from rows of hexadecimal digits or from bytes until every function has its value.
-/

namespace Firmware

/-- Functions with their values, and those that still wait for one. -/
structure PointerReader where
  found : FunctionTable := []
  waiting : List FunctionInfo
deriving DecidableEq, Repr

namespace PointerReader

def isDone (p : PointerReader) : Bool := p.waiting.isEmpty

/-- Gives the next function its value, which stands as `digits` in the template. A function
without formats is data, whose address is even. -/
def add (t : Target) (p : PointerReader) (value : UInt32) (digits : Bytes) :
    Except Failure PointerReader :=
  match p.waiting with
  | [] => .ok p
  | f :: rest =>
    if value == 0 then .error (.noPointerValue f.name digits)
    else if f.argsFormat.isEmpty then
      .ok ⟨p.found.insert { f with value := value &&& ~~~1 }, rest⟩
    else if t.wantsThumb && value &&& 1 == 0 then .error (.notThumbPointer f.name digits)
    else .ok ⟨p.found.insert { f with value }, rest⟩

/-- Gives the next function the value that a row of digits stands for, low byte first. -/
def addPointer (t : Target) (p : PointerReader) (digits : Bytes) : Except Failure PointerReader :=
  if p.isDone then .ok p
  else
    let numeral := IntelHex.swapPairs digits
    match Numeral.read (.fixed 16) 32 numeral with
    | .error f => .error (.badPointer digits numeral f)
    | .ok n => p.add t n.toUInt32 digits

/-- Takes pointers from a row of digits; digits left over at the end are not used. -/
def addDigits (t : Target) (p : PointerReader) (row : Bytes) : Except Failure PointerReader :=
  ((Bytes.rows t.pointerDigits row).filter (·.length == t.pointerDigits)).foldlM (addPointer t) p

/-- Gives the next function the value of a stored word. -/
def addWord (t : Target) (p : PointerReader) (word : Bytes) : Except Failure PointerReader :=
  if p.isDone then .ok p
  else p.add t (Bytes.word32 word) (Utf8.encode (Hexadecimal.lower word))

/-- Takes pointers from bytes, four at a time. -/
def addBytes (t : Target) (p : PointerReader) (b : Bytes) : Except Failure PointerReader :=
  ((Bytes.rows 4 b).filter (·.length == 4)).foldlM (addWord t) p

/-- The functions, once all of them have their values. -/
def finish (p : PointerReader) : Except Failure FunctionTable :=
  if p.isDone then .ok p.found else .error (.missingFunctions (p.waiting.map (·.name)))

end PointerReader
end Firmware
