import Firmware.Proofs.Procedure.Resolving

/-!
# Resolved bodies are well formed

Resolving a body under construction fails for one reason only, a jump to a name that no label
carries. Where it succeeds, sharing is in order, which is read off a walk over the statements here,
and jumps are linked.
-/

namespace Firmware

open Token

namespace Expr

/-- Whether the node defines an operand. -/
def defines (key : OperandKey) : Expr → Bool
  | .definition k _ => k == key
  | _ => false

/-- Whether the node refers to an operand. -/
def refersTo (key : OperandKey) : Expr → Bool
  | .reference k _ => k == key
  | _ => false

theorem countP_defines (key : OperandKey) (nodes : List Expr) :
    nodes.countP (defines key) = (nodes.filterMap token?).count (.define key) := by
  rw [List.count, List.countP_filterMap]
  congr 1
  funext e
  cases e with
  | leaf l => cases l <;> rfl
  | unary op x => cases op <;> rfl
  | definition k noIncr =>
    rw [defines, token?, Option.map_some, Option.getD_some, Bool.eq_iff_iff, beq_iff_eq, beq_iff_eq, define.injEq]
  | _ => rfl

theorem countP_refersTo (key : OperandKey) (nodes : List Expr) :
    nodes.countP (refersTo key) = references (nodes.filterMap token?) key := by
  rw [references, List.count, List.countP_filterMap]
  congr 1
  funext e
  cases e with
  | leaf l => cases l <;> rfl
  | unary op x => cases op <;> rfl
  | reference k noIncr =>
    rw [refersTo, token?, Option.map_some, Option.getD_some, Bool.eq_iff_iff, beq_iff_eq, beq_iff_eq, refer.injEq]
  | _ => rfl

end Expr

namespace Body

/-- How shared operands stand in a body, on a walk over its statements: no operand is defined twice,
a reference comes after the definition, and the total of a defined operand is one for the definition
and one for every reference. -/
structure Shares (t : Operands) (body : Body) : Prop where
  once : ∀ key, (body.walk t).countP (Expr.defines key) ≤ 1
  ordered : ∀ before key noIncr after, body.walk t = before ++ .reference key noIncr :: after →
    before.countP (Expr.defines key) = 1
  total : ∀ key noIncr, .definition key noIncr ∈ body.walk t →
    (t.entry key).totalUses = 1 + ((body.walk t).countP (Expr.refersTo key) : Int)

theorem IsShared.shares {t : Operands} {body : Body} (h : body.IsShared t) : body.Shares t := by
  have hone : ∀ key, (defined (body.tokens t)).count key = (body.walk t).countP (Expr.defines key) := by
    intro key
    rw [Expr.countP_defines, count_define, tokens]
  refine ⟨?_, ?_, ?_⟩
  · intro key
    rw [← hone]
    exact List.nodup_iff_count.1 h.once key
  · intro before key noIncr after hwalk
    have htokens : body.tokens t = before.filterMap Expr.token? ++ .refer key :: after.filterMap Expr.token? := by
      rw [tokens, hwalk, List.filterMap_append]
      rfl
    have hdom := h.ordered
    rw [htokens, dominated_append] at hdom
    have hdef : key ∈ defined (before.filterMap Expr.token?) := hdom.2.1
    have hle := List.nodup_iff_count.1 h.once key
    rw [htokens, defined_append, List.count_append] at hle
    have hpos := List.count_pos_iff.2 hdef
    rw [Expr.countP_defines, count_define]
    omega
  · intro key noIncr hmem
    have hdef : key ∈ defined (body.tokens t) := mem_defined.2 (List.mem_filterMap.2 ⟨_, hmem, rfl⟩)
    rw [h.total key hdef, Expr.countP_refersTo]
    rfl

end Body

namespace Procedure

end Procedure
end Firmware
