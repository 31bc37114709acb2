import Firmware.Procedure.Operand

/-!
# Statements

The statements of a procedure body. Jumps name their label; once a body is resolved a jump also
knows the position of its label, and a label the positions of the jumps to it.
-/

namespace Firmware

/-- The condition under which a jump is taken. -/
inductive JumpMode where
  | always
  | ifZero
  | ifNotZero
  | ifJumpValue
  | ifLambda
  | other (code : Int)
deriving DecidableEq, Repr

namespace JumpMode

def ofCode (code : Int) : JumpMode :=
  if code == 1 then .always
  else if code == 2 then .ifZero
  else if code == 3 then .ifNotZero
  else if code == 4 then .ifJumpValue
  else if code == 5 then .ifLambda
  else .other code

def code : JumpMode → Int
  | .always => 1
  | .ifZero => 2
  | .ifNotZero => 3
  | .ifJumpValue => 4
  | .ifLambda => 5
  | .other code => code

end JumpMode

/-- What a debugger knows of a breakpoint. -/
structure Breakpoint where
  id : Int
  file : String
  line : Int
  column : Int
  isDebuggerStatement : Bool
  /-- The breakpoints that may be hit next. -/
  successors : List Int := []
  /-- The offset in the machine code. -/
  address : UInt32 := 0
deriving DecidableEq, Repr

/-- A jump target, unique within its procedure. -/
structure Label where
  name : String
  stackSize : Int
  /-- The positions of the jumps to this label. -/
  jumps : List Nat := []
deriving DecidableEq, Repr

def Label.uses (l : Label) : Nat := l.jumps.length

/-- A branch. The value is what an unconditional jump carries, or what a conditional one tests. -/
structure Jump where
  label : String
  mode : JumpMode
  value : Option Expr
  terminate : Option Expr := none
  /-- The position of the label. -/
  target : Option Nat := none
deriving Repr

inductive Stmt where
  /-- Evaluates an expression for its effect. -/
  | expr (x : Expr)
  | label (l : Label)
  | jump (j : Jump)
  /-- A point without live temporaries. -/
  | stackEmpty
  | breakpoint (b : Breakpoint)
deriving Repr

namespace Stmt

/-- The expression that the statement evaluates. -/
def expr? : Stmt → Option Expr
  | .expr x => some x
  | .jump j => j.value
  | _ => none

/-- Applies `f` to the expression of a statement. -/
def mapExprM {m : Type → Type} [Monad m] (f : Expr → m Expr) : Stmt → m Stmt
  | .expr x => do return .expr (← f x)
  | .jump j =>
    match j.value with
    | some x => do return .jump { j with value := some (← f x) }
    | none => pure (.jump j)
  | s => pure s

/-- Whether the statement only evaluates an expression that may be dropped. -/
def isPure : Stmt → Bool
  | .expr x => x.isPure
  | _ => false

/-- A jump as it is shown in dumps, given the text of its value. -/
def renderJump (j : Jump) (value : Option String) : String :=
  let inner := value.getD "\x7bnull\x7d"
  let goto := "goto " ++ j.label ++ "\n"
  match j.mode with
  | .always =>
    match value with
    | some text => "    \x7b JMPVALUE := " ++ text ++ " \x7d " ++ goto
    | none => "    " ++ goto
  | .ifZero => "    if (! " ++ inner ++ ") " ++ goto
  | .ifNotZero => "    if (" ++ inner ++ ") " ++ goto
  | .ifJumpValue => "    if (r0 == " ++ inner ++ ") " ++ goto
  | .ifLambda => "    if (LAMBDA) return " ++ inner ++ "\n"
  | .other code => "    jmp(" ++ Numeral.decimal code ++ ") " ++ goto

/-- The statement as it is shown in dumps, once the operands are numbered. -/
def render (t : Operands) : Stmt → String
  | .expr x => "    " ++ x.render t ++ "\n"
  | .label l => l.name ++ ":\n"
  | .jump j => renderJump j (j.value.map (Expr.render t))
  | .stackEmpty => "    ;\n"
  | .breakpoint b => "    // brk " ++ Numeral.decimal b.id ++ "\n"

/-- The nodes of the statement's expression in evaluation order. -/
def walk (t : Operands) (s : Stmt) : List Expr :=
  match s.expr? with
  | some x => x.walk t
  | none => []

end Stmt

abbrev Body := List Stmt

namespace Body

/-- The nodes of all expressions in evaluation order. -/
def walk (t : Operands) (body : Body) : List Expr := List.flatMap (Stmt.walk t) body

def render (t : Operands) (body : Body) : String := String.join (List.map (Stmt.render t) body)

def number (s : Scope) (body : Body) : Scope := (walk s.operands body).foldl Scope.numberNode s

/-- Applies `f` to the expressions of all statements, in order. -/
def mapExprM {m : Type → Type} [Monad m] (f : Expr → m Expr) : Body → m Body
  | [] => pure []
  | s :: rest => do
    let s ← s.mapExprM f
    let rest ← mapExprM f rest
    return s :: rest

/-- Leaves out the statements that only evaluate an expression that may be dropped. -/
def dropPure (body : Body) : Body := List.filter (fun s => !s.isPure) body

end Body
end Firmware
