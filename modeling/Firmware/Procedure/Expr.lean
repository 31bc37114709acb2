import Firmware.Procedure.Cell

/-!
# Expressions

An expression is a leaf, an operator applied to operands, or a mention of a shared operand. A
shared operand is evaluated once, at its definition, and read by every reference; the operand
itself is kept in a table under its key, so an expression only mentions the key. An operand that
nothing refers to again is inlined: its expression stands where its definition was, and stays in
the table, so that it is the same expression wherever the operand is mentioned.

Operators are grouped by the shape of what they apply to, which is what traversals look at.
-/

namespace Firmware

/-- How the result of a call is delivered. -/
inductive Convention where
  | plain
  | async
  | promise
  | other (code : Int)
deriving DecidableEq, Repr

def Convention.ofCode (code : Int) : Convention :=
  if code == 0 then .plain else if code == 1 then .async else if code == 2 then .promise
  else .other code

def Convention.code : Convention → Int
  | .plain => 0
  | .async => 1
  | .promise => 2
  | .other code => code

/-- The target of a procedure call. An interface or virtual index that is not negative goes before
the procedure's own name. -/
structure Callee where
  procedure : Option String
  virtualIndex : Int
  interfaceIndex : Int
deriving DecidableEq, Repr

namespace Callee

def direct (procedure : String) : Callee := ⟨some procedure, -1, -1⟩

def render (c : Callee) : String :=
  if 0 ≤ c.interfaceIndex then "IFACE@" ++ Numeral.decimal c.interfaceIndex
  else if 0 ≤ c.virtualIndex then "VTABLE@" ++ Numeral.decimal c.virtualIndex
  else c.procedure.getD "?"

end Callee

inductive Leaf where
  | number (value : Int)
  | pointer (label tag : String)
  | cell (c : Cell)
  | jumpValue
  | nop
deriving DecidableEq, Repr

inductive UnaryOp where
  | incr
  | decr
  | field (name : String) (index : Int)
  | instanceOf (className : String)
deriving DecidableEq, Repr

inductive ManyOp where
  /-- A runtime routine; `mask` marks the arguments that are reference counted. -/
  | runtimeCall (name : String) (convention : Convention) (mask : Option UInt32)
  | procedureCall (callee : Callee)
  /-- Evaluates its items in order; the value is the last one. -/
  | sequence
deriving DecidableEq, Repr

abbrev OperandKey := Nat

/-- An expression. The flag of a mention of a shared operand says that this use never adds a
reference. -/
inductive Expr where
  | leaf (l : Leaf)
  | unary (op : UnaryOp) (x : Expr)
  | store (target value : Expr)
  | many (op : ManyOp) (args : List Expr)
  | reference (key : OperandKey) (noIncr : Bool)
  | definition (key : OperandKey) (noIncr : Bool)
  | inlined (key : OperandKey)
deriving Repr, Inhabited

namespace Expr

/-! ## Construction -/

abbrev number (value : Int) : Expr := .leaf (.number value)

/-- One for true, zero for false. -/
def ofBool (b : Bool) : Expr := number (if b then 1 else 0)

/-- A plain runtime call; a mask of zero marks nothing. -/
def runtimeCall (name : String) (args : List Expr) (mask : UInt32) : Expr :=
  .many (.runtimeCall name .plain (if mask == 0 then none else some mask)) args

/-- The mark in front of a routine's name that drops the mask. -/
def unmaskedMark : List Char := "@nomask@".toList

def runtimeCallAs (name : String) (mask : UInt32) (convention : Convention) (args : List Expr) :
    Expr :=
  let cs := name.toList
  if unmaskedMark.isPrefixOf cs then
    .many (.runtimeCall (String.ofList (cs.drop unmaskedMark.length)) convention none) args
  else .many (.runtimeCall name convention (if mask == 0 then none else some mask)) args

def call (procedure : String) (args : List Expr) : Expr :=
  .many (.procedureCall (.direct procedure)) args

abbrev ofCell (c : Cell) : Expr := .leaf (.cell c)

/-! ## Classification -/

/-- Whether the expression is an operator with its operands. -/
def isCompound : Expr → Bool
  | .unary _ _ => true
  | .store _ _ => true
  | .many _ _ => true
  | _ => false

def isLiteral : Expr → Bool
  | .leaf (.number _) => true
  | .leaf (.pointer _ _) => true
  | _ => false

/-- Whether evaluation has no effect and no cost worth keeping. -/
def isStateless : Expr → Bool
  | .reference _ _ => true
  | e => e.isLiteral

/-- Whether the expression may be dropped when its value is unused. -/
def isPure : Expr → Bool
  | .leaf (.cell _) => true
  | e => e.isStateless

end Expr

namespace Cell

/-- A read that counts references: the runtime unboxes a boxed cell, and a counted one gets an
increment. -/
def load (c : Cell) : Expr :=
  if c.isBoxed then .runtimeCall "pxtrt::ldlocRef" [.ofCell c] 0
  else if c.countsHere then .unary .incr (.ofCell c)
  else .ofCell c

def storeDirect (c : Cell) (value : Expr) : Expr := .store (.ofCell c) value

end Cell
end Firmware
