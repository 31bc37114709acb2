import Firmware.Proofs.Procedure.Retain

/-!
# Statements with their trees

A line is a statement together with the tree of the expression that it evaluates. A pass over a body
goes from statement to statement and changes expressions only, so it is told by the trees that it
leaves (`run_mapExprM`); the statements around them stay as they are.
-/

open List

namespace Firmware

namespace Stmt

/-- The statement with another expression in place of its own. -/
def withExpr (s : Stmt) (e : Expr) : Stmt :=
  match s with
  | .expr _ => .expr e
  | .jump j => .jump { j with value := some e }
  | s => s

theorem expr?_withExpr {s : Stmt} (h : s.expr?.isSome = true) (e : Expr) : (s.withExpr e).expr? = some e := by
  cases s with
  | expr x => rfl
  | jump j => rfl
  | _ => exact absurd h Bool.false_ne_true

theorem run_mapExprM_some {f : Expr → PassM Expr} {s : Stmt} {e e' : Expr} {p q : Pass}
    (hs : s.expr? = some e) (hf : (f e).run p = (e', q)) :
    (s.mapExprM f).run p = (s.withExpr e', q) := by
  cases s with
  | expr x =>
    rw [expr?, Option.some.injEq] at hs
    subst hs
    rw [mapExprM, Pass.run_bind_of hf]
    rfl
  | jump j =>
    rw [expr?] at hs
    rw [mapExprM]
    split
    · rename_i x hx
      rw [hs, Option.some.injEq] at hx
      subst hx
      rw [Pass.run_bind_of hf]
      rfl
    · rename_i hx
      rw [hs] at hx
      exact absurd hx (by simp only [reduceCtorEq, not_false_eq_true])
  | _ => exact absurd hs (by simp only [expr?, reduceCtorEq, not_false_eq_true])

theorem run_mapExprM_none {f : Expr → PassM Expr} {s : Stmt} (p : Pass) (hs : s.expr? = none) :
    (s.mapExprM f).run p = (s, p) := by
  cases s with
  | expr x => exact absurd hs (by simp only [expr?, reduceCtorEq, not_false_eq_true])
  | jump j =>
    rw [expr?] at hs
    rw [mapExprM]
    split
    · rename_i x hx
      rw [hs] at hx
      exact absurd hx (by simp only [reduceCtorEq, not_false_eq_true])
    · rfl
  | label l => rfl
  | stackEmpty => rfl
  | breakpoint b => rfl

end Stmt

/-! ## Lines -/

/-- A statement and the tree of its expression. -/
structure Line where
  stmt : Stmt
  tree : Option Tree

namespace Line

/-- The statement with the expression of the tree. -/
def toStmt (l : Line) : Stmt :=
  match l.tree with
  | some x => l.stmt.withExpr x.head
  | none => l.stmt

/-- The line has a tree where the statement has an expression. -/
def Fits (l : Line) : Prop := l.stmt.expr?.isSome = l.tree.isSome

/-- The trees of several lines. -/
def trees (ls : List Line) : List Tree := ls.filterMap tree

/-- The tokens of several lines. -/
def tokens (ls : List Line) : List Token := (trees ls).flatMap Tree.tokens

@[simp] theorem trees_cons_some (s : Stmt) (x : Tree) (ls : List Line) :
    trees (⟨s, some x⟩ :: ls) = x :: trees ls := rfl

@[simp] theorem trees_cons_none (s : Stmt) (ls : List Line) : trees (⟨s, none⟩ :: ls) = trees ls := rfl

theorem expr?_toStmt {l : Line} (h : l.Fits) : l.toStmt.expr? = l.tree.map Tree.head := by
  rw [toStmt]
  cases ht : l.tree with
  | none =>
    rw [Fits, ht, Option.isSome_none, Option.isSome_eq_false_iff, Option.isNone_iff_eq_none] at h
    rw [h, Option.map_none]
  | some x =>
    rw [Fits, ht, Option.isSome_some] at h
    exact Stmt.expr?_withExpr h x.head

end Line

namespace Body

/-- The expressions that the statements of a body evaluate. -/
def exprs (body : Body) : List Expr := List.filterMap Stmt.expr? body

/-- The lines of a body whose expressions stand for the given trees. -/
def lines : Body → List Tree → List Line
  | [], _ => []
  | s :: rest, xs =>
    match s.expr?, xs with
    | some _, x :: xs => ⟨s, some x⟩ :: lines rest xs
    | _, xs => ⟨s, none⟩ :: lines rest xs

theorem lines_some {s : Stmt} (hs : s.expr?.isSome = true) (rest : Body) (x : Tree)
    (xs : List Tree) : lines (s :: rest) (x :: xs) = ⟨s, some x⟩ :: lines rest xs := by
  obtain ⟨e, he⟩ := Option.isSome_iff_exists.1 hs
  simp only [lines, he]

theorem lines_none {s : Stmt} (hs : s.expr? = none) (rest : Body) (xs : List Tree) :
    lines (s :: rest) xs = ⟨s, none⟩ :: lines rest xs := by
  simp only [lines, hs]

theorem stmts_lines (body : Body) (xs : List Tree) : (lines body xs).map Line.stmt = body := by
  induction body generalizing xs with
  | nil => rfl
  | cons s rest ih =>
    cases hs : s.expr? with
    | none => rw [lines_none hs, map_cons, ih]
    | some e =>
      cases xs with
      | nil => simp only [lines, hs, map_cons, ih]
      | cons x xs => rw [lines_some (by rw [hs]; rfl), map_cons, ih]

/-- As many trees as expressions fit. -/
theorem fits_lines {body : Body} {xs : List Tree} (h : xs.length = body.exprs.length) :
    (∀ l ∈ lines body xs, l.Fits) ∧ Line.trees (lines body xs) = xs := by
  induction body generalizing xs with
  | nil =>
    rw [exprs, filterMap_nil, length_nil, length_eq_zero_iff] at h
    rw [h]
    exact ⟨fun _ hl => absurd hl not_mem_nil, rfl⟩
  | cons s rest ih =>
    cases hs : s.expr? with
    | none =>
      rw [exprs, filterMap_cons_none hs] at h
      obtain ⟨hfits, htrees⟩ := ih h
      rw [lines_none hs, forall_mem_cons, Line.trees_cons_none]
      exact ⟨⟨by rw [Line.Fits, hs]; rfl, hfits⟩, htrees⟩
    | some e =>
      rw [exprs, filterMap_cons_some hs, length_cons] at h
      cases xs with
      | nil => exact absurd h (by simp only [length_nil]; omega)
      | cons x xs =>
        obtain ⟨hfits, htrees⟩ := ih (Nat.succ.inj h)
        rw [lines_some (by rw [hs]; rfl), forall_mem_cons, Line.trees_cons_some, htrees]
        exact ⟨⟨by rw [Line.Fits, hs]; rfl, hfits⟩, rfl⟩

theorem exprs_map_toStmt {ls : List Line} (h : ∀ l ∈ ls, l.Fits) :
    exprs (ls.map Line.toStmt) = (Line.trees ls).map Tree.head := by
  induction ls with
  | nil => rfl
  | cons l rest ih =>
    obtain ⟨hl, hrest⟩ := forall_mem_cons.1 h
    have hexpr := Line.expr?_toStmt hl
    rw [exprs, map_cons, Line.trees]
    cases ht : l.tree with
    | none =>
      rw [ht, Option.map_none] at hexpr
      rw [filterMap_cons_none hexpr, filterMap_cons_none ht]
      exact ih hrest
    | some x =>
      rw [ht, Option.map_some] at hexpr
      rw [filterMap_cons_some hexpr, filterMap_cons_some ht, map_cons]
      exact congrArg _ (ih hrest)

end Body

/-! ## Passes over a body -/

namespace Pass

/-- From `p` to `q` the pass turns the expressions one after the other into those of the trees. -/
inductive Runs (f : Expr → PassM Expr) : List Expr → List Tree → Pass → Pass → Prop
  | nil (p : Pass) : Runs f [] [] p p
  | cons {e : Expr} {x : Tree} {es : List Expr} {xs : List Tree} {p q r : Pass} :
    (f e).run p = (x.head, q) → Runs f es xs q r → Runs f (e :: es) (x :: xs) p r

/-- A pass over a body leaves the statements with the expressions of the trees. -/
theorem run_mapExprM {f : Expr → PassM Expr} {body : Body} {xs : List Tree} {p q : Pass}
    (h : Runs f body.exprs xs p q) :
    (body.mapExprM f).run p = ((body.lines xs).map Line.toStmt, q) := by
  induction body generalizing xs p with
  | nil =>
    cases h
    rfl
  | cons s rest ih =>
    rw [Body.mapExprM]
    cases hs : s.expr? with
    | none =>
      rw [Body.exprs, filterMap_cons_none hs] at h
      rw [run_bind_of (Stmt.run_mapExprM_none p hs), run_bind_of (ih h), Body.lines_none hs]
      rfl
    | some e =>
      rw [Body.exprs, filterMap_cons_some hs] at h
      cases h with
      | cons hx hxs =>
        rw [run_bind_of (Stmt.run_mapExprM_some hs hx), run_bind_of (ih hxs), Body.lines_some (by rw [hs]; rfl)]
        rfl

end Pass
end Firmware
