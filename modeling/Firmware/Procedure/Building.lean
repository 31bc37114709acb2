import Firmware.Procedure.Stmt

/-!
# Procedures under construction

A procedure collects cells and statements in the order they are declared. Labels and temporaries
are numbered per procedure; clearing a procedure for another try keeps counting declarations, so
the names of the cells made afterwards differ from those made before.
-/

namespace Firmware

/-- A procedure under construction. -/
structure Procedure where
  /-- The empty name stands for inline code. -/
  name : String
  seqNo : Int
  /-- Where the procedure was declared; empty for inline code. -/
  location : String := ""
  /-- The top-level procedure, whose locals live on as globals. -/
  isRoot : Bool := false
  numArgs : Nat := 0
  locals : List Cell := []
  captured : List Cell := []
  args : List Cell := []
  body : Body := []
  labelsMade : Nat := 0
  declarations : Nat := 0
  temporaries : Nat := 0
  isResolved : Bool := false
deriving Repr

namespace Procedure

/-- The name that messages show. -/
def displayName (p : Procedure) : String := if p.name.isEmpty then "inline" else p.name

def label (p : Procedure) : String :=
  Text.identifier p.displayName ++ "__P" ++ Numeral.decimal p.seqNo

/-- The label of the entry that checks its arguments, which dispatch tables use. -/
def checkedLabel (p : Procedure) : String := p.label ++ "_args"

/-- The name with the place of declaration, when that is known. -/
def fullName (p : Procedure) : String :=
  if p.location.isEmpty then p.displayName else p.displayName ++ " " ++ p.location

def renderBody (p : Procedure) (t : Operands) (body : Body) : String :=
  "\nPROC " ++ p.displayName ++ "\n" ++ body.render t ++ "\n"

/-- Clears body and cells, so that the procedure can be built again. -/
def reset (p : Procedure) : Procedure :=
  { p with body := [], labelsMade := 0, locals := [], captured := [], args := [],
           isResolved := false }

/-! ## Statements -/

def emit (p : Procedure) (s : Stmt) : Procedure := { p with body := p.body ++ [s] }

def makeLabel (p : Procedure) (name : String) (stackSize : Int) : Label × Procedure :=
  ({ name := "." ++ name ++ "_" ++ Numeral.decimal p.labelsMade ++ "_" ++ Numeral.decimal p.seqNo,
     stackSize },
   { p with labelsMade := p.labelsMade + 1 })

def emitJump (p : Procedure) (label : String) (value : Option Expr) (mode : JumpMode)
    (terminate : Option Expr) : Procedure :=
  let terminate := match terminate with
    | some (.leaf (.number _)) => none
    | other => other
  p.emit (.jump { label, mode, value, terminate })

/-- Appends the release of the value in a local or argument. -/
def emitClear (p : Procedure) (c : Cell) : Except Failure Procedure :=
  if c.isGlobal || c.place == .capture then .error (.clearingNonLocal c.render)
  else .ok (p.emit (.expr (.unary .decr (.ofCell c))))

/-- Appends the release of each of the cells, up to one that cannot be released. -/
def emitClears (p : Procedure) : List Cell → Procedure × Option Failure
  | [] => (p, none)
  | c :: rest =>
    match p.emitClear c with
    | .ok p => p.emitClears rest
    | .error f => (p, some f)

/-- Appends the release of every local; those of the root live on. -/
def emitClearAll (p : Procedure) : Procedure × Option Failure :=
  if p.isRoot then (p, none) else p.emitClears p.locals

/-! ## Cells -/

/-- What a new cell is used for. -/
structure CellTraits where
  counted : Bool := false
  captured : Bool := false
  written : Bool := false
  isGlobal : Bool := false

def CellTraits.cell (u : CellTraits) (place : Place) (index : Int) (name : String) (serial : Nat) :
    Cell :=
  { place, index, name, serial, counted := u.counted, captured := u.captured,
    written := u.written, isGlobal := u.isGlobal }

def makeLocal (p : Procedure) (name : String) (u : CellTraits) : Cell × Procedure :=
  let c := u.cell .declared p.locals.length name (p.declarations + 1)
  (c, { p with declarations := p.declarations + 1, locals := p.locals ++ [c] })

def makeTemporary (p : Procedure) (u : CellTraits) : Cell × Procedure :=
  let c := u.cell .temporary p.locals.length ("unnamed" ++ Numeral.decimal p.temporaries) 0
  (c, { p with temporaries := p.temporaries + 1, locals := p.locals ++ [c] })

def makeArgument (p : Procedure) (name : String) (u : CellTraits) : Cell × Procedure :=
  let c := u.cell .argument p.args.length name (p.declarations + 1)
  (c, { p with declarations := p.declarations + 1, args := p.args ++ [c],
               numArgs := p.args.length + 1 })

def makeCapture (p : Procedure) (name : String) (u : CellTraits) : Cell × Procedure :=
  let c := u.cell .capture p.captured.length name (p.declarations + 1)
  (c, { p with declarations := p.declarations + 1, captured := p.captured ++ [c] })

/-- The cell declared with a name: a capture before a local before an argument. -/
def findCell (p : Procedure) (name : String) (noArgs : Bool) : Option Cell :=
  (p.captured ++ p.locals ++ (if noArgs then [] else p.args)).find? (·.name == name)

end Procedure

def Cell.makeGlobal (name : String) (index : Int) (u : Procedure.CellTraits) : Cell :=
  { u.cell .global index name 0 with isGlobal := true }

end Firmware
