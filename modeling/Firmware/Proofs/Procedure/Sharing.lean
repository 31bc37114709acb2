import Firmware.Procedure.Resolve
import Firmware.Proofs.Procedure.Stages

/-!
# Sharing in a resolved body

The check at the end of resolving walks over the body and looks for a reference before its
definition, a second definition, or a total that does not count them. It finds none where sharing is
in order (`IsShared.verifySharing`), which is how the last stage leaves it.
-/

namespace Firmware

open Token
namespace Body

open List

/-- The tokens of a body, as a walk over its statements meets them. -/
def tokens (t : Operands) (body : Body) : List Token := (body.walk t).filterMap Expr.token?

theorem walk_eq (t : Operands) (body : Body) : body.walk t = body.exprs.flatMap (Expr.walk t) := by
  induction body with
  | nil => rfl
  | cons s rest ih =>
    rw [walk, flatMap_cons, exprs]
    cases hs : s.expr? with
    | none =>
      rw [filterMap_cons_none hs, Stmt.walk, hs]
      exact ih
    | some e =>
      rw [filterMap_cons_some hs, flatMap_cons, Stmt.walk, hs]
      exact congrArg _ ih

section

variable {t : Operands} {body : Body} {xs : List Tree} (hexprs : body.exprs = xs.map Tree.head)
  (hs : ∀ x ∈ xs, Tree.Stored t x) (hb : ∀ x ∈ xs, x.Below t.length)
include hexprs hs hb

/-- A walk over a body that stands for trees goes through the trees. -/
theorem walk_eq_trees : body.walk t = xs.flatMap Tree.walk := by
  rw [walk_eq, hexprs, flatMap_map, flatMap_def, flatMap_def]
  congr 1
  exact map_congr_left fun x hx => Tree.walkTo_head (hs x hx) (hb x hx) (Nat.le_refl _)

theorem tokens_eq : body.tokens t = xs.flatMap Tree.tokens := by
  rw [tokens, walk_eq_trees hexprs hs hb, filterMap_flatMap]
  rfl

end

/-- Takes one token into account, as `checkNode` does with a node. -/
def checkToken (u : Uses) : Token → Except (OperandKey × (Nat → Failure)) Uses
  | .effect _ => .ok u
  | .define key =>
    if u.defined.contains key then .error (key, .definedTwice)
    else .ok { u with defined := u.defined ++ [key] }
  | .refer key =>
    if u.defined.contains key then .ok { u with referenced := u.referenced ++ [key] }
    else .error (key, .usedBeforeDefinition)

theorem foldlM_checkNode (nodes : List Expr) (u : Uses) :
    nodes.foldlM checkNode u = (nodes.filterMap Expr.token?).foldlM checkToken u := by
  have hstep : ∀ (u : Uses) (e : Expr), checkNode u e = match e.token? with
      | some t => checkToken u t
      | none => .ok u := by
    intro u e
    cases e with
    | leaf l => cases l <;> rfl
    | unary op x => cases op <;> rfl
    | _ => rfl
  induction nodes generalizing u with
  | nil => rfl
  | cons e rest ih =>
    rw [foldlM_cons, hstep]
    cases ht : e.token? with
    | none =>
      rw [filterMap_cons_none ht]
      exact ih u
    | some t =>
      rw [filterMap_cons_some ht, foldlM_cons]
      congr 1
      funext v
      exact ih v

/-- The check goes through a row in which references follow definitions, each made once. -/
theorem foldlM_checkToken {ts : List Token} {u : Uses} (hdom : Token.Dominated u.defined ts)
    (hnew : ∀ key ∈ defined ts, key ∉ u.defined) (hnodup : (defined ts).Nodup) :
    ∃ v, ts.foldlM checkToken u = .ok v ∧ v.defined = u.defined ++ defined ts ∧
      ∀ key, v.referenced.count key = u.referenced.count key + references ts key := by
  induction ts generalizing u with
  | nil => exact ⟨u, rfl, (append_nil _).symm, fun _ => rfl⟩
  | cons t rest ih =>
    cases t with
    | effect e =>
      obtain ⟨v, hv, hdef, href⟩ := ih (u := u) hdom hnew hnodup
      refine ⟨v, hv, hdef, fun key => ?_⟩
      rw [href, references_effect]
    | define k =>
      rw [defined_define] at hnew hnodup
      have hk : u.defined.contains k = false := by
        rw [← Bool.not_eq_true, contains_iff_mem]
        exact hnew k mem_cons_self
      have hstep : checkToken u (.define k) = .ok { u with defined := u.defined ++ [k] } := by
        rw [checkToken, hk]
        rfl
      obtain ⟨v, hv, hdef, href⟩ := ih (u := { u with defined := u.defined ++ [k] })
        (Token.Dominated.mono hdom fun j hj => by
          rcases mem_cons.1 hj with rfl | hj
          · exact mem_append_right _ mem_cons_self
          · exact mem_append_left _ hj)
        (fun j hj hmem => by
          rcases mem_append.1 hmem with hmem | hmem
          · exact hnew j (mem_cons_of_mem _ hj) hmem
          · rw [mem_singleton] at hmem
            exact (nodup_cons.1 hnodup).1 (hmem ▸ hj))
        (nodup_cons.1 hnodup).2
      refine ⟨v, ?_, ?_, fun key => ?_⟩
      · rw [foldlM_cons, hstep]
        exact hv
      · rw [hdef, defined_define, append_assoc]
        rfl
      · rw [href, references_define]
    | refer k =>
      rw [defined_refer] at hnew hnodup
      have hstep : checkToken u (.refer k) = .ok { u with referenced := u.referenced ++ [k] } := by
        rw [checkToken, contains_iff_mem.2 hdom.1]
        rfl
      obtain ⟨v, hv, hdef, href⟩ := ih (u := { u with referenced := u.referenced ++ [k] }) hdom.2 hnew hnodup
      refine ⟨v, ?_, ?_, fun key => ?_⟩
      · rw [foldlM_cons, hstep]
        exact hv
      · rw [hdef, defined_refer]
      · rw [href, count_append, count_singleton, Nat.add_assoc]
        by_cases hkey : k = key
        · subst hkey
          rw [if_pos (beq_self_eq_true k), references_refer_self, Nat.add_comm 1]
        · rw [if_neg (by rw [beq_iff_eq]; exact hkey), references_refer_ne (Ne.symm hkey), Nat.zero_add]

/-- Sharing is in order: operands are defined once, in front of all references, and the total of a
defined operand is its definition and the references to it. -/
structure IsShared (t : Operands) (body : Body) : Prop where
  once : (defined (body.tokens t)).Nodup
  ordered : Token.Dominated [] (body.tokens t)
  total : ∀ key ∈ defined (body.tokens t),
    (t.entry key).totalUses = 1 + (references (body.tokens t) key : Int)

theorem checkCount_eq_none_iff {t : Operands} {u : Uses} {key : OperandKey} :
    checkCount t u key = none ↔ (t.entry key).totalUses = 1 + (u.referenced.count key : Int) := by
  have htotal : (t[key]?.map (·.totalUses)).getD 0 = (t.entry key).totalUses := by
    rw [Operands.entry]
    cases t[key]? <;> rfl
  simp only [checkCount, htotal, ite_eq_left_iff, reduceCtorEq, imp_false, Decidable.not_not, beq_iff_eq, Int.add_comm]

/-- In a body that defines operands once, in front of all references, only totals can be at fault. -/
theorem sharingFault_eq_none_iff {t : Operands} {body : Body} (hdom : Token.Dominated [] (body.tokens t))
    (honce : (defined (body.tokens t)).Nodup) : sharingFault t body = none ↔
      ∀ key ∈ defined (body.tokens t), (t.entry key).totalUses = 1 + (references (body.tokens t) key : Int) := by
  obtain ⟨v, hv, hdef, href⟩ := foldlM_checkToken (u := {}) hdom (fun _ _ => not_mem_nil) honce
  have hcheck : sharingFault t body = v.defined.findSome? (checkCount t v) := by
    rw [sharingFault, foldlM_checkNode, ← tokens, hv]
  rw [hcheck, findSome?_eq_none_iff, hdef, nil_append]
  refine forall₂_congr fun key _ => ?_
  rw [checkCount_eq_none_iff, href, count_nil, Nat.zero_add]

/-- The check finds no fault where sharing is in order. -/
theorem IsShared.verifySharing {s : Scope} {body : Body} (h : body.IsShared s.operands) :
    body.verifySharing s = (none, s) := by
  rw [Body.verifySharing, (sharingFault_eq_none_iff h.ordered h.once).2 h.total]

/-- The trees that the last stage leaves share in order. -/
theorem isShared_of_finishing {u : OperandKey → Bool} {n : Nat} {T : OperandKey → Int}
    {w : List Token} {xs : List Tree} {p : Pass} (h : Pass.Finishing u n T w xs [] p) {body : Body}
    (hexprs : body.exprs = xs.map Tree.head) : body.IsShared p.table := by
  have htokens := tokens_eq hexprs h.settled.stored h.settled.below
  refine ⟨?_, ?_, ?_⟩
  · rw [htokens]
    exact h.distinct.sublist (Tree.defined_sublist_flatMap_keys xs)
  · rw [htokens]
    exact h.ordered
  · rw [htokens]
    intro key hk
    have hexact := h.exact key (by rw [append_nil]; exact hk)
    rw [append_nil, ← h.retaining.total] at hexact
    exact hexact

end Body

end Firmware
