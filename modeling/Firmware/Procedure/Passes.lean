import Firmware.Procedure.Stmt

/-!
# Passes

The passes that resolving a procedure is made of. Each works on one tree and leaves the operands
of shared definitions to a visitor, which is the same pass one level deeper.

* `introduce` turns the first reference to each operand into its definition.
* `simplify` collapses counting that has no effect and drops items of a sequence that do nothing.
* `count` counts uses and inlines definitions that are never referred to again.
* `retain` adds a reference at every use but the last.

A pass never stops at a failure; the first one is kept.
-/

namespace Firmware

/-- The state that passes work on. -/
structure Pass where
  scope : Scope
  failure : Option Failure := none

/-- A step that may change operands and record a failure. -/
abbrev PassM := StateM Pass

namespace Pass

def operand (key : OperandKey) : PassM Operand := do
  return ((← get).scope.operands[key]?).getD default

def value (key : OperandKey) : PassM Expr := do return (← get).scope.operands.value key

def update (key : OperandKey) (f : Operand → Operand) : PassM Unit :=
  modify fun p => { p with scope := p.scope.update key f }

def number (key : OperandKey) : PassM Nat := do
  let (n, scope) := (← get).scope.number key
  modify fun p => { p with scope }
  return n

/-- Records a failure that names an operand, unless there was one before. -/
def fail (key : OperandKey) (cause : Nat → Failure) : PassM Unit := do
  let n ← number key
  modify fun p => { p with failure := p.failure <|> some (cause n) }

def inside (visit : Expr → PassM Expr) (key : OperandKey) : PassM Unit := do
  let x ← visit (← value key)
  update key fun o => { o with value := x }

/-- What stands in place of a definition that gives way: the operand's expression, which the
operand keeps when it has parts that may still change. -/
def inlineUse (key : OperandKey) (x : Expr) : PassM Expr := do
  if x.isCompound then
    update key fun o => { o with value := x }
    return .inlined key
  else return x

/-- A pass given by its step on one tree, entering operands to the given depth. -/
def deep (step : (Expr → PassM Expr) → Expr → PassM Expr) : Nat → Expr → PassM Expr
  | 0, e => step pure e
  | depth + 1, e => step (deep step depth) e

/-- A pass given by its step on one tree, entering operands as deep as the table goes. -/
def run (step : (Expr → PassM Expr) → Expr → PassM Expr) (e : Expr) : PassM Expr := do
  deep step (← get).scope.operands.length e

/-! ## Definitions -/

mutual

/-- Turns the first reference to each operand into its definition. Afterwards `totalUses` of an
operand is the negated number of its uses. -/
def introduceStep (visit : Expr → PassM Expr) : Expr → PassM Expr
  | .leaf l => pure (.leaf l)
  | .unary op x => do return .unary op (← introduceStep visit x)
  | .store target value => do
    let target ← introduceStep visit target
    let value ← introduceStep visit value
    return .store target value
  | .many op args => do return .many op (← introduceSteps visit args)
  | .definition key noIncr => do
    fail key .definedBeforeResolve
    return .definition key noIncr
  | .inlined key => do
    inside visit key
    return .inlined key
  | .reference key noIncr => do
    if (← operand key).totalUses == 0 then
      update key fun o => { o with totalUses := -1, currentUses := 0, placedUses := 0 }
      inside visit key
      return .definition key noIncr
    else
      update key fun o => { o with totalUses := o.totalUses - 1 }
      return .reference key noIncr

def introduceSteps (visit : Expr → PassM Expr) : List Expr → PassM (List Expr)
  | [] => pure []
  | x :: rest => do
    let x ← introduceStep visit x
    let rest ← introduceSteps visit rest
    return x :: rest

end

/-- Turns the first reference to each operand into its definition. -/
def introduce (e : Expr) : PassM Expr := run introduceStep e

/-! ## Simplification -/

/-- The operand of an increment, also of one that stands inlined. -/
def incremented : Expr → PassM (Option Expr)
  | .unary .incr y => return some y
  | .inlined key => do
    match ← value key with
    | .unary .incr y => return some y
    | _ => return none
  | _ => return none

/-- What an operator over a simplified operand gives way to, if it does: counting of a value that
is not counted goes away, and so does an increment that is dropped again. -/
def collapsed (op : UnaryOp) (x : Expr) : PassM (Option Expr) := do
  let uncounted := x.isUncounted (← get).scope.operands
  match op with
  | .incr => return if uncounted then some x else none
  | .decr => if uncounted then return some x else incremented x
  | _ => return none

/-- Takes back the use of a reference that is dropped after uses were counted. -/
def release : Expr → PassM Unit
  | .reference key _ =>
    update key fun o => if 0 < o.totalUses then { o with totalUses := o.totalUses - 1 } else o
  | _ => pure ()

/-- Drops the items of a sequence that may be dropped, the last one excepted. -/
def dropItems : List Expr → PassM (List Expr)
  | [] => pure []
  | [x] => pure [x]
  | x :: rest => do
    if x.isPure then
      release x
      dropItems rest
    else
      let rest ← dropItems rest
      return x :: rest

/-- A list of operands under an operator, once they are simplified. -/
def collapseMany (op : ManyOp) (args : List Expr) : PassM Expr :=
  match op with
  | .sequence => do return .many .sequence (← dropItems args)
  | op => pure (.many op args)

mutual

/-- Simplifies from the leaves up. A reference is left alone. -/
def simplifyStep (visit : Expr → PassM Expr) : Expr → PassM Expr
  | .leaf l => pure (.leaf l)
  | .reference key noIncr => pure (.reference key noIncr)
  | .definition key noIncr => do
    inside visit key
    return .definition key noIncr
  | .inlined key => do
    match ← value key with
    | .unary op x =>
      -- the operand keeps an operator that gives way here
      let x ← visit x
      update key fun o => { o with value := .unary op x }
      return (← collapsed op x).getD (.inlined key)
    | _ =>
      inside visit key
      return .inlined key
  | .unary op x => do
    let x ← simplifyStep visit x
    return (← collapsed op x).getD (.unary op x)
  | .store target value => do
    let target ← simplifyStep visit target
    let value ← simplifyStep visit value
    return .store target value
  | .many op args => do
    let args ← simplifySteps visit args
    collapseMany op args

def simplifySteps (visit : Expr → PassM Expr) : List Expr → PassM (List Expr)
  | [] => pure []
  | x :: rest => do
    let x ← simplifyStep visit x
    let rest ← simplifySteps visit rest
    return x :: rest

end

/-- Collapses counting that has no effect and drops items that do nothing. -/
def simplify (e : Expr) : PassM Expr := run simplifyStep e

/-! ## Counting -/

mutual

/-- Counts uses: a definition is the first, every reference adds one. A definition without
references gives way to its operand. -/
def countStep (visit : Expr → PassM Expr) : Expr → PassM Expr
  | .leaf l => pure (.leaf l)
  | .unary op x => do return .unary op (← countStep visit x)
  | .store target value => do
    let target ← countStep visit target
    let value ← countStep visit value
    return .store target value
  | .many op args => do return .many op (← countSteps visit args)
  | .definition key noIncr => do
    -- every definition met is numbered, also one that gives way
    let _ ← number key
    let o ← operand key
    if o.totalUses < 0 && o.currentUses == 0 then
      if o.totalUses == -1 then inlineUse key (← visit o.value)
      else
        update key fun o => { o with totalUses := 1 }
        inside visit key
        return .definition key noIncr
    else
      fail key fun n => .staleDefinition n o.totalUses o.currentUses
      return .definition key noIncr
  | .reference key noIncr => do
    if (← operand key).totalUses ≤ 0 then fail key .notDominated
    else update key fun o => { o with totalUses := o.totalUses + 1 }
    return .reference key noIncr
  | .inlined key => do
    inside visit key
    return .inlined key

def countSteps (visit : Expr → PassM Expr) : List Expr → PassM (List Expr)
  | [] => pure []
  | x :: rest => do
    let x ← countStep visit x
    let rest ← countSteps visit rest
    return x :: rest

end

/-- Counts uses and inlines definitions without references. -/
def count (e : Expr) : PassM Expr := run countStep e

/-! ## Retaining -/

/-- Adds a reference at a use that is not the last. A definition that is the only use gives way to
its operand. -/
def retainUse (key : OperandKey) (noIncr isDefinition : Bool) : PassM Expr := do
  let e : Expr := if isDefinition then .definition key noIncr else .reference key noIncr
  let o ← operand key
  if o.totalUses ≤ 0 then
    fail key fun n => .useWithoutCount n o.totalUses
    return e
  else if o.totalUses == 1 then
    if isDefinition then inlineUse key o.value
    else
      fail key .singleUseIsReference
      return e
  else
    update key fun o => { o with placedUses := o.placedUses + 1 }
    return if noIncr || o.placedUses + 1 == o.totalUses then e else .unary .incr e

mutual

/-- Adds a reference at every use but the last, so that each consumer owns one. -/
def retainStep (visit : Expr → PassM Expr) : Expr → PassM Expr
  | .leaf l => pure (.leaf l)
  | .unary op x => do return .unary op (← retainStep visit x)
  | .store target value => do
    let target ← retainStep visit target
    let value ← retainStep visit value
    return .store target value
  | .many op args => do return .many op (← retainSteps visit args)
  | .definition key noIncr => do
    inside visit key
    retainUse key noIncr true
  | .reference key noIncr => retainUse key noIncr false
  | .inlined key => do
    inside visit key
    return .inlined key

def retainSteps (visit : Expr → PassM Expr) : List Expr → PassM (List Expr)
  | [] => pure []
  | x :: rest => do
    let x ← retainStep visit x
    let rest ← retainSteps visit rest
    return x :: rest

end

def retain (e : Expr) : PassM Expr := run retainStep e

end Pass
end Firmware
