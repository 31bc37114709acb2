import Firmware.Procedure.Stmt

/-!
# Breakpoint successors

Which breakpoints may be hit next after a given statement: those that control flow reaches without
passing another breakpoint. The search follows the target of a conditional jump before what stands
behind the jump, and visits every statement at most once.
-/

namespace Firmware
namespace Body

/-- The positions that control may go to from the statement at position `i`, in the order in which
a search takes them. Nothing follows a breakpoint. -/
def follow (i : Nat) : Stmt → List Nat
  | .jump j =>
    if j.mode == .always then j.target.toList else j.target.toList ++ [i + 1]
  | .breakpoint _ => []
  | _ => [i + 1]

/-- Erasing a position that is there makes the list shorter. -/
theorem length_erase_lt {i : Nat} {l : List Nat} (h : i ∈ l) : (l.erase i).length < l.length := by
  have hpos := List.length_pos_of_mem h
  have hlen := List.length_erase_of_mem h
  omega

/-- The ids of the breakpoints met from the positions in `pending`, in search order, where only
the positions in `unseen` are still to be visited. -/
def search (body : Body) (pending unseen : List Nat) : List Int :=
  match pending with
  | [] => []
  | i :: rest =>
    if _h : i ∈ unseen then
      match body[i]? with
      | some (.breakpoint b) => b.id :: search body rest (unseen.erase i)
      | some s => search body (follow i s ++ rest) (unseen.erase i)
      | none => search body rest (unseen.erase i)
    else search body rest unseen
termination_by (unseen.length, pending.length)
decreasing_by
  all_goals simp_wf
  all_goals first
    | exact Prod.Lex.left _ _ (length_erase_lt _h)
    | exact Prod.Lex.right _ (by omega)

/-- The ids of the breakpoints that may be hit first when control is at position `start`. -/
def nextBreakpoints (body : Body) (start : Nat) : List Int :=
  search body [start] (List.range (List.length body))

/-- Records in every breakpoint the ones that may be hit next. -/
def linkBreakpoints (body : Body) : Body :=
  List.mapIdx (fun i s => match s with
    | .breakpoint b => .breakpoint { b with successors := nextBreakpoints body (i + 1) }
    | s => s) body

end Body
end Firmware
