import Firmware.Procedure.Building
import Firmware.Procedure.Passes
import Firmware.Procedure.Successors

/-!
# Resolving a procedure

A procedure is finished once: shared operands are defined at their first use and counted, jumps
are linked to labels, and breakpoints to their successors. The body being built stays as it is; the
resolved one has operands of its own.
-/

namespace Firmware

structure Resolved where
  procedure : Procedure
  body : Body
  operands : Operands

namespace Body

/-! ## Labels -/

def labelPosition (body : Body) (name : String) : Option Nat :=
  (List.range (List.length body)).reverse.find? fun i =>
    match body[i]? with
    | some (.label l) => l.name == name
    | _ => false

def jumpPositions (body : Body) (name : String) : List Nat :=
  (List.range (List.length body)).filter fun i =>
    match body[i]? with
    | some (.jump j) => j.label == name
    | _ => false

/-- Whether the statement is a jump to a label that the body does not have. -/
def isDangling (body : Body) : Stmt → Bool
  | .jump j => (labelPosition body j.label).isNone
  | _ => false

/-- Links every jump to the last label of its name, and that label to the jumps. -/
def linkJumps (body : Body) : Body :=
  List.mapIdx (fun i s => match s with
    | .jump j => .jump { j with target := labelPosition body j.label }
    | .label l =>
      .label { l with jumps := if labelPosition body l.name == some i then
                                 jumpPositions body l.name else [] }
    | s => s) body

/-- The position of each label by name; of labels with one name the last counts. -/
def labels (body : Body) : List (String × Nat) :=
  (List.mapIdx (fun i s => match s with
    | .label l => if labelPosition body l.name == some i then some (l.name, i) else none
    | _ => none) body).filterMap id

def breakpoints (body : Body) : List Breakpoint :=
  List.filterMap (fun s => match s with
    | .breakpoint b => some b
    | _ => none) body

/-- Leaves out the breakpoints whose id comes again later. -/
def lastOfEachId : List Breakpoint → List Breakpoint
  | [] => []
  | b :: rest =>
    if rest.any (·.id == b.id) then lastOfEachId rest else b :: lastOfEachId rest

/-- The breakpoints in the order of their ids; of those with one id the last counts. -/
def breakpointsById (body : Body) : List Breakpoint :=
  (lastOfEachId body.breakpoints).mergeSort fun a b => a.id ≤ b.id

/-! ## Checking -/

/-- The uses met so far when sharing is checked. -/
structure Uses where
  defined : List OperandKey := []
  referenced : List OperandKey := []

/-- Takes one node into account; gives the fault of a definition or reference out of place. -/
def checkNode (u : Uses) : Expr → Except (OperandKey × (Nat → Failure)) Uses
  | .definition key _ =>
    if u.defined.contains key then .error (key, .definedTwice)
    else .ok { u with defined := u.defined ++ [key] }
  | .reference key _ =>
    if u.defined.contains key then .ok { u with referenced := u.referenced ++ [key] }
    else .error (key, .usedBeforeDefinition)
  | _ => .ok u

/-- The fault of an operand whose recorded count is not its definition plus its references. -/
def checkCount (t : Operands) (u : Uses) (key : OperandKey) :
    Option (OperandKey × (Nat → Failure)) :=
  let references : Nat := u.referenced.count key
  let totalUses : Int := (t[key]?.map (·.totalUses)).getD 0
  if totalUses == (references : Int) + 1 then none
  else some (key, fun n => .useCountMismatch n totalUses references)

/-- The first fault of sharing in a body: a reference before its definition, a second definition,
or a wrong count. -/
def sharingFault (t : Operands) (body : Body) : Option (OperandKey × (Nat → Failure)) :=
  match (walk t body).foldlM checkNode {} with
  | .error fault => some fault
  | .ok u => u.defined.findSome? (checkCount t u)

/-- Checks that every reference follows its definition and that every recorded count is right. -/
def verifySharing (s : Scope) (body : Body) : Option Failure × Scope :=
  match sharingFault s.operands body with
  | none => (none, s)
  | some (key, cause) =>
    let (n, s) := s.number key
    (some (cause n), s)

end Body

namespace Procedure

open Pass

/-- Definitions are introduced, expressions simplified, and statements that do nothing dropped. -/
def placeDefinitions (body : Body) : PassM Body := do
  let body ← body.mapExprM fun e => do simplify (← introduce e)
  return body.dropPure

/-- Uses are counted; a jump without a label ends the count with its statement. -/
def countUses (body : Body) : PassM (Except Failure Body) := do
  match List.findIdx? body.isDangling body with
  | some i =>
    let reached : Body := List.take (i + 1) body
    let _ ← reached.mapExprM count
    match body[i]? with
    | some (.jump j) => return .error (.missingLabel j.label)
    | _ => return .ok body
  | none =>
    let counted ← body.mapExprM count
    return .ok counted.linkJumps

/-- Increments are added, statement by statement, and simplified away where they meet a drop. -/
def retainUses (body : Body) : PassM Body :=
  body.mapExprM fun e => do simplify (← retain e)

/-- The failure recorded so far, if any, or else the result. -/
def settle {α : Type} (a : α) : PassM (Except Failure α) := do
  match (← get).failure with
  | some f => return .error f
  | none => return .ok a

/-- All passes in order. The state keeps what was numbered on the way, also of a failed run. -/
def passes (body : Body) : ExceptT Failure PassM Body := do
  let placed ← ExceptT.mk (do settle (← placeDefinitions body))
  let counted ← ExceptT.mk (countUses placed)
  let counted ← ExceptT.mk (settle counted)
  let retained ← ExceptT.mk (do settle (← retainUses counted))
  let (fault, scope) := retained.verifySharing (← get).scope
  modify fun p => { p with scope }
  match fault with
  | some f => throw f
  | none => return retained.linkBreakpoints

/-- Finishes the procedure, which can be done only once. Operands that the run names take the next
numbers of the compilation unit, whether it succeeds or not. -/
def resolve (p : Procedure) (s : Scope) : Except Failure Resolved × Procedure × Scope :=
  if p.isResolved then (.error (.resolvedTwice p.displayName), p, s)
  else
    let (result, state) := (passes p.body).run.run { scope := ⟨s.operands.copies, s.numbered⟩ }
    let p := { p with isResolved := true }
    let s := { s with numbered := state.scope.numbered }
    match result with
    | .error f => (.error f, p, s)
    | .ok body => (.ok ⟨p, body, state.scope.operands⟩, p, s)

end Procedure

namespace Resolved

/-- The operands of a finished procedure with the count of numbers of the compilation unit. -/
def scope (r : Resolved) (numbered : Nat) : Scope := ⟨r.operands, numbered⟩

/-- A dump of the body, once the operands are numbered. -/
def render (r : Resolved) : String := r.procedure.renderBody r.operands r.body

/-- Numbers the operands that a full dump shows: first those of the body, then those of the
expressions that jumps terminate. -/
def number (r : Resolved) (numbered : Nat) : Resolved × Nat :=
  let s := r.body.number (r.scope numbered)
  let terminated := List.filterMap (fun
    | .jump j => j.terminate
    | _ => none) r.body
  let s := terminated.foldl Scope.numberExpr s
  ({ r with operands := s.operands }, s.numbered)

/-- Checks sharing; a fault numbers the operand it names. -/
def verifySharing (r : Resolved) (numbered : Nat) : Option Failure × Resolved × Nat :=
  let (fault, s) := r.body.verifySharing (r.scope numbered)
  (fault, { r with operands := s.operands }, s.numbered)

/-- Simplifies the body once more. Gives the statements that do something; the procedure keeps the
others too, with their expressions simplified. -/
def peephole (r : Resolved) : Body × Resolved :=
  let (body, state) := (r.body.mapExprM Pass.simplify).run { scope := r.scope 0 }
  (body.dropPure, { r with body, operands := state.scope.operands })

end Resolved
end Firmware
