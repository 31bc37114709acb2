import Firmware.Procedure.Expr

/-!
# Shared operands

The table of shared operands, and what is read off an expression with the table at hand: the nodes
met on a walk, the text of a dump, and whether a value is reference counted.

An operand's expression mentions only operands made before it, so a walk that enters operands
through their definitions goes at most as deep as the table is long. Every traversal below is
given by its step on one tree, which leaves the operands to a visitor, and the depth to which the
visitor goes on.

An operand gets its number when it is first named in a dump or a message. Numbers count up through
a compilation unit, whatever table the operand is in.
-/

namespace Firmware

structure Operand where
  value : Expr
  /-- While definitions are being placed the negated number of uses met; afterwards the number of
  uses, the definition included. -/
  totalUses : Int := 0
  currentUses : Int := 0
  /-- The number of uses that increments have been decided for. -/
  placedUses : Int := 0
  number : Option Nat := none
deriving Repr, Inhabited

/-- The operands of a compilation unit, by key. -/
abbrev Operands := List Operand

namespace Operands

def value (t : Operands) (key : OperandKey) : Expr :=
  match t[key]? with
  | some o => o.value
  | none => .leaf .nop

def numberOf (t : Operands) (key : OperandKey) : Nat := (t[key]?.bind (·.number)).getD 0

/-- Fresh copies for another table: counted like the operands, but not numbered. -/
def copies (t : Operands) : Operands := t.map fun o => { o with placedUses := 0, number := none }

end Operands

/-! ## Traversals -/

namespace Expr

mutual

/-- One tree's nodes before their operands, from left to right. -/
def walkStep (enter : OperandKey → List Expr) : Expr → List Expr
  | .leaf l => [.leaf l]
  | .unary op x => .unary op x :: walkStep enter x
  | .store target value => .store target value :: (walkStep enter target ++ walkStep enter value)
  | .many op args => .many op args :: walkSteps enter args
  | .reference key noIncr => [.reference key noIncr]
  | .definition key noIncr => .definition key noIncr :: enter key
  | .inlined key => enter key

/-- The nodes of several trees in a row. -/
def walkSteps (enter : OperandKey → List Expr) : List Expr → List Expr
  | [] => []
  | x :: rest => walkStep enter x ++ walkSteps enter rest

end

/-- The nodes of `e`, entering operands to the given depth. -/
def walkTo (t : Operands) : Nat → Expr → List Expr
  | 0, e => walkStep (fun _ => []) e
  | depth + 1, e => walkStep (fun key => walkTo t depth (t.value key)) e

/-- The nodes of `e` in evaluation order, each before its operands; a shared operand is entered
through its definition only. -/
def walk (t : Operands) (e : Expr) : List Expr := walkTo t t.length e

mutual

/-- The value of an expression is not reference counted, given which operands' are not. -/
def uncountedStep (operand : OperandKey → Bool) : Expr → Bool
  | .leaf (.number _) => true
  | .many .sequence items => uncountedLast operand items
  | .many (.runtimeCall name _ _) _ =>
    name == "String_::mkEmpty" || name == "pxt::ptrOfLiteral"
  | .reference key _ => operand key
  | .definition key _ => operand key
  | .inlined key => operand key
  | _ => false

/-- The last of several values is not reference counted; nor is the value of nothing. -/
def uncountedLast (operand : OperandKey → Bool) : List Expr → Bool
  | [] => true
  | [x] => uncountedStep operand x
  | _ :: rest => uncountedLast operand rest

end

/-- Whether the value of `e` is not reference counted, looking into operands to the given depth. -/
def uncountedTo (t : Operands) : Nat → Expr → Bool
  | 0, e => uncountedStep (fun _ => false) e
  | depth + 1, e => uncountedStep (fun key => uncountedTo t depth (t.value key)) e

/-- Whether `e` never yields a reference-counted value, so that counting its references can be
left out. -/
def isUncounted (t : Operands) (e : Expr) : Bool := uncountedTo t t.length e

/-- Whether evaluation may write a cell, given which operands do. -/
def updatesStep (operand : OperandKey → Bool) : Expr → Bool
  | .leaf _ => false
  | .unary _ x => updatesStep operand x
  | .reference _ _ => false
  | .definition key _ => operand key
  | .inlined key => operand key
  | _ => true

/-- Whether evaluation may write a cell, entering operands to the given depth. -/
def updatesTo (t : Operands) : Nat → Expr → Bool
  | 0, e => updatesStep (fun _ => true) e
  | depth + 1, e => updatesStep (fun key => updatesTo t depth (t.value key)) e

def updatesCells (t : Operands) (e : Expr) : Bool := updatesTo t t.length e

def renderLeaf : Leaf → String
  | .number value => Numeral.decimal value
  | .pointer label _ => label
  | .cell c => c.render
  | .jumpValue => "JMPVALUE"
  | .nop => "NOP"

def renderUnary (op : UnaryOp) (x : String) : String :=
  match op with
  | .incr => "INCR(" ++ x ++ ")"
  | .decr => "DECR(" ++ x ++ ")"
  | .field name _ => x ++ "." ++ name
  | .instanceOf className => "(" ++ x ++ " instanceof " ++ className ++ ")"

def renderMany (op : ManyOp) (args : List String) : String :=
  match op with
  | .runtimeCall name _ _ => name ++ "(" ++ String.intercalate ", " args ++ ")"
  | .procedureCall callee => callee.render ++ "(" ++ String.intercalate ", " args ++ ")"
  | .sequence => "(" ++ String.intercalate "; " args ++ ")"

mutual

/-- The text of one tree, given the numbers and the texts of the operands. -/
def renderStep (number : OperandKey → Nat) (operand : OperandKey → String) : Expr → String
  | .leaf l => renderLeaf l
  | .unary op x => renderUnary op (renderStep number operand x)
  | .store target value =>
    "\x7b " ++ renderStep number operand target ++ " := " ++ renderStep number operand value ++
      " \x7d"
  | .many op args => renderMany op (renderSteps number operand args)
  | .reference key _ => "SHARED_REF(#" ++ Numeral.decimal (number key) ++ ")"
  | .definition key _ =>
    "SHARED_DEF(#" ++ Numeral.decimal (number key) ++ ": " ++ operand key ++ ")"
  | .inlined key => operand key

/-- The texts of several trees. -/
def renderSteps (number : OperandKey → Nat) (operand : OperandKey → String) :
    List Expr → List String
  | [] => []
  | x :: rest => renderStep number operand x :: renderSteps number operand rest

end

/-- The text of `e`, showing operands to the given depth. -/
def renderTo (t : Operands) : Nat → Expr → String
  | 0, e => renderStep t.numberOf (fun _ => "") e
  | depth + 1, e => renderStep t.numberOf (fun key => renderTo t depth (t.value key)) e

/-- The expression as it is shown in dumps, once its operands are numbered. -/
def render (t : Operands) (e : Expr) : String := renderTo t t.length e

end Expr

/-! ## Scopes -/

/-- A table of operands and the count of numbers given out in the compilation unit. -/
structure Scope where
  operands : Operands
  numbered : Nat
deriving Repr, Inhabited

namespace Scope

def empty : Scope := ⟨[], 0⟩

def update (s : Scope) (key : OperandKey) (f : Operand → Operand) : Scope :=
  { s with operands := s.operands.modify key f }

def add (s : Scope) (o : Operand) : OperandKey × Scope :=
  (s.operands.length, { s with operands := s.operands ++ [o] })

/-- Makes `e` a shared operand and gives a reference to it. A number stays as it is, and sharing a
reference refers to the same operand again. -/
def share (s : Scope) (e : Expr) (noIncr : Bool) : Expr × Scope :=
  match e with
  | .reference key _ => (.reference key noIncr, s)
  | .leaf (.number value) => (.number value, s)
  | _ =>
    let (key, s) := s.add { value := e }
    (.reference key noIncr, s)

/-- The number of an operand; it gets the next one if it has none. -/
def number (s : Scope) (key : OperandKey) : Nat × Scope :=
  match s.operands[key]? with
  | none => (0, s)
  | some o =>
    match o.number with
    | some n => (n, s)
    | none =>
      let n := s.numbered + 1
      (n, { s.update key (fun o => { o with number := some n }) with numbered := n })

def numberNode (s : Scope) : Expr → Scope
  | .reference key _ => (s.number key).2
  | .definition key _ => (s.number key).2
  | _ => s

def numberExpr (s : Scope) (e : Expr) : Scope := (e.walk s.operands).foldl numberNode s

end Scope

/-- A write that releases the old value. The new value is kept first, so that a value computed
from the cell still sees the old one. -/
def Cell.storeCounted (c : Cell) (value : Expr) (s : Scope) : Expr × Scope :=
  if c.isBoxed then (.runtimeCall "pxtrt::stlocRef" [.ofCell c, value] 0, s)
  else if c.countsHere then
    let (kept, s) := s.share value false
    (.many .sequence
      [.unary .decr kept, .unary .decr (.ofCell c), c.storeDirect kept], s)
  else (c.storeDirect value, s)

end Firmware
