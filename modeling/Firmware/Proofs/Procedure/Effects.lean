import Firmware.Proofs.Procedure.Resolving

/-!
# Effects

Resolving keeps what a body does. The effects of a body under construction are those of the trees
that it unfolds to, where each shared operand is entered once, at the first reference to it. The
resolved body has the same effects in the same order (`resolve_effects`): its statements are those of
the body under construction, each with the effects it had, without some that only evaluate an
expression and have none.
-/

namespace Firmware

open List

/-- The effects of tokens are those of the nodes they stand for. -/
theorem Token.effects_filterMap (nodes : List Expr) :
    Token.effects (nodes.filterMap Expr.token?) = nodes.filterMap Expr.effect? := by
  rw [effects, filterMap_filterMap]
  congr 1
  funext e
  cases e with
  | leaf l => cases l <;> rfl
  | unary op x => cases op <;> rfl
  | _ => rfl

namespace Tree

/-- The effects of a tree in the order of a walk. -/
def effects (x : Tree) : List Effect := x.walk.filterMap Expr.effect?

theorem effects_eq (x : Tree) : x.effects = Token.effects x.tokens := (Token.effects_filterMap x.walk).symm

theorem effects_simplify (u : OperandKey → Bool) (x : Tree) : (x.simplify u).effects = x.effects := by
  rw [effects_eq, effects_eq, (thins_simplify u x).effects_eq]

theorem effects_strip (gone : OperandKey → Bool) (x : Tree) : (x.strip gone).effects = x.effects := by
  rw [effects_eq, effects_eq, tokens_strip, Token.effects_without]

theorem effects_retain (T : OperandKey → Int) (w : List Token) (x : Tree) : (x.retain T w).effects = x.effects := by
  rw [effects_eq, effects_eq, tokens_retain, Token.effects_without]

theorem map_effects_finish (u : OperandKey → Bool) (T : OperandKey → Int) (w : List Token)
    (xs : List Tree) : (finish u T w xs).map effects = xs.map effects := by
  induction xs generalizing T w with
  | nil => rfl
  | cons x rest ih =>
    rw [finish, map_cons, map_cons, ih, effects_simplify, effects_retain]

end Tree

/-! ## Statement by statement -/

/-- The effects of a statement's expression in the order of a walk. -/
def Stmt.effects (t : Operands) (s : Stmt) : List Effect := (s.walk t).filterMap Expr.effect?

/-- The effects of a line. -/
def Line.effects (l : Line) : List Effect :=
  match l.tree with
  | some x => x.effects
  | none => []

namespace Line

theorem effects_mapTree {f : Tree → Tree} (h : ∀ x, (f x).effects = x.effects) (l : Line) :
    (l.mapTree f).effects = l.effects := by
  obtain ⟨s, tree⟩ := l
  cases tree with
  | none => rfl
  | some x => exact h x

theorem outline?_toStmt {l : Line} (h : l.Fits) : l.toStmt.outline? = l.stmt.outline? := by
  rw [← Stmt.outline?_skeleton, skeleton_toStmt h, Stmt.outline?_skeleton]

theorem effects_toStmt {l : Line} (hl : l.Fits) {t : Operands}
    (h : ∀ x, l.tree = some x → Tree.Stored t x ∧ x.Below t.length) :
    l.toStmt.effects t = l.effects := by
  have hexpr := expr?_toStmt hl
  rw [Stmt.effects, Stmt.walk, hexpr, effects]
  cases ht : l.tree with
  | none => rfl
  | some x =>
    obtain ⟨hs, hb⟩ := h x ht
    exact congrArg (List.filterMap Expr.effect?) (Tree.walkTo_head hs hb (Nat.le_refl _))

/-- A line that is dropped has no effects. -/
theorem effects_of_isPure {l : Line} (h : l.isPure = true) : l.effects = [] := by
  obtain ⟨_, x, hx, _, htokens⟩ := isPure_cases h
  rw [effects, hx]
  simp only [Tree.effects_eq]
  rcases htokens with htokens | ⟨key, htokens⟩
  · rw [htokens]; rfl
  · rw [htokens]; rfl

/-- Lines that differ in their links and trees only. -/
theorem map_outline_effects_lines {body : Body} {ls : List Line} {xs : List Tree}
    (hbody : List.map (fun s => (s.outline?, s.expr?.isSome)) body = ls.map fun l => (l.stmt.outline?, l.tree.isSome))
    (hxs : xs.map Tree.effects = (trees ls).map Tree.effects) :
    (body.lines xs).map (fun l => (l.stmt.outline?, l.effects)) = ls.map fun l => (l.stmt.outline?, l.effects) := by
  induction ls generalizing body xs with
  | nil =>
    rw [map_nil, map_eq_nil_iff] at hbody
    rw [hbody]
    rfl
  | cons l rest ih =>
    cases body with
    | nil => exact nomatch hbody
    | cons s body =>
      rw [map_cons, map_cons, List.cons.injEq, Prod.mk.injEq] at hbody
      obtain ⟨⟨houtline, hsome⟩, hrest⟩ := hbody
      obtain ⟨s', tree⟩ := l
      cases tree with
      | none =>
        rw [Option.isSome_none, Option.isSome_eq_false_iff, Option.isNone_iff_eq_none] at hsome
        rw [Body.lines_none hsome, map_cons, map_cons, ih hrest hxs, houtline]
        rfl
      | some x =>
        rw [trees_cons_some, map_cons] at hxs
        cases xs with
        | nil => exact nomatch hxs
        | cons y ys =>
          rw [map_cons, List.cons.injEq] at hxs
          rw [Body.lines_some hsome, map_cons, map_cons, ih hrest hxs.2, houtline]
          congr 2
          exact hxs.1

end Line

namespace Body

/-- The lines of a body under construction that are not dropped. -/
def kept (t : Operands) (body : Body) : List Line :=
  (body.unfolded t).filter fun l => !(l.mapTree (Tree.simplify t.uncountable)).isPure

theorem placed_eq (t : Operands) (body : Body) :
    body.placed t = (body.kept t).map (Line.mapTree (Tree.simplify t.uncountable)) := by
  rw [placed, Line.place, filter_map, kept]
  rfl

theorem counted_eq (t : Operands) (body : Body) : (body.counted t).map (fun l => (l.stmt.outline?, l.effects)) =
      (body.kept t).map fun l => (l.stmt.outline?, l.effects) := by
  rw [counted, placed_eq, map_map, map_map]
  refine map_congr_left fun l _ => ?_
  rw [Function.comp_apply, Function.comp_apply, Line.effects_mapTree (Tree.effects_strip _),
    Line.effects_mapTree (Tree.effects_simplify _)]
  rfl

/-- What is dropped has no effects. -/
theorem flatMap_effects_kept (t : Operands) (body : Body) :
    (body.kept t).flatMap Line.effects = (body.unfolded t).flatMap Line.effects := by
  rw [kept]
  induction body.unfolded t with
  | nil => rfl
  | cons l rest ih =>
    rw [filter_cons, flatMap_cons]
    split
    · rw [flatMap_cons, ih]
    · rename_i hpure
      rw [Bool.not_eq_true', Bool.not_eq_false] at hpure
      have hnil := Line.effects_of_isPure hpure
      rw [Line.effects_mapTree (Tree.effects_simplify _)] at hnil
      rw [hnil, ih, nil_append]

theorem map_outline_linkJumps (body : Body) : List.map (fun s => (s.outline?, s.expr?.isSome)) body.linkJumps =
      List.map (fun s => (s.outline?, s.expr?.isSome)) body :=
  map_mapIdx_of (fun i s => by cases s <;> rfl) body

theorem map_outline_linkBreakpoints (t : Operands) (body : Body) :
    List.map (fun s => (s.outline?, s.effects t)) body.linkBreakpoints =
      List.map (fun s => (s.outline?, s.effects t)) body :=
  map_mapIdx_of (fun i s => by cases s <;> rfl) body

/-- The statements of the resolved body, with their effects, are those that are kept. -/
theorem map_outline_effects_result {t t' : Operands} {body : Body}
    (hs : ∀ x ∈ body.resolved t, Tree.Stored t' x) (hb : ∀ x ∈ body.resolved t, x.Below t'.length) :
    List.map (fun s => (s.outline?, s.effects t')) (body.result t) =
      (body.kept t).map fun l => (l.stmt.outline?, l.effects) := by
  obtain ⟨hfits, htrees⟩ := fits_lines (length_resolved t body)
  have hlines : ∀ l ∈ lines (linkJumps ((body.counted t).map Line.toStmt)) (body.resolved t),
      (l.toStmt.outline?, l.toStmt.effects t') = (l.stmt.outline?, l.effects) := by
    intro l hl
    rw [Line.outline?_toStmt (hfits l hl), Line.effects_toStmt (hfits l hl)]
    intro x hx
    have hmem : x ∈ body.resolved t := by
      rw [← htrees]
      exact mem_filterMap.2 ⟨l, hl, hx⟩
    exact ⟨hs x hmem, hb x hmem⟩
  have hjumps : List.map (fun s => (s.outline?, s.expr?.isSome))
      (linkJumps ((body.counted t).map Line.toStmt)) =
        (body.counted t).map fun l => (l.stmt.outline?, l.tree.isSome) := by
    rw [map_outline_linkJumps, map_map]
    refine map_congr_left fun l hl => ?_
    have hl := fits_counted t body l hl
    rw [Function.comp_apply, Line.outline?_toStmt hl, Line.expr?_toStmt hl, Option.isSome_map]
  rw [result, map_outline_linkBreakpoints, retained, map_map, ← counted_eq]
  refine (map_congr_left hlines).trans (Line.map_outline_effects_lines hjumps ?_)
  exact Tree.map_effects_finish _ _ _ _

end Body

namespace Procedure

/-- The resolved body has the effects of the body under construction in their order, and its
statements are those of the body under construction, each with its effects; what is left out only
evaluates an expression. -/
theorem resolve_effects (p : Procedure) (s : Scope) (r : Resolved)
    (hb : p.body.IsBuilt s.operands) (hr : (p.resolve s).1 = .ok r) :
    (r.body.walk r.operands).filterMap Expr.effect? =
      (p.body.unfolded s.operands).flatMap Line.effects ∧
    r.body.outlines = p.body.outlines ∧
    ∃ kept : List Line, kept.Sublist (p.body.unfolded s.operands) ∧
      List.map (fun s => (s.outline?, s.effects r.operands)) r.body =
        kept.map fun l => (l.stmt.outline?, l.effects) := by
  obtain ⟨_, hbody, q, T, w, htable, hfin⟩ := of_resolve_eq_ok hb hr
  have hmap := Body.map_outline_effects_result hfin.settled.stored hfin.settled.below
  rw [htable, ← hbody] at hmap
  refine ⟨?_, ?_, _, List.filter_sublist, hmap⟩
  · have heffects := congrArg (fun steps => (steps.map Prod.snd).flatten) hmap
    simp only [List.map_map] at heffects
    rw [← Body.flatMap_effects_kept, List.flatMap_def]
    refine Eq.trans ?_ heffects
    rw [Body.walk, List.filterMap_flatMap, List.flatMap_def]
    rfl
  · rw [hbody, Body.outlines_result]

/-- A call that is shared by three statements happens once, where the first of them is. -/
theorem resolve_effects_shared_call :
    ∃ r, (resolve
        { name := "main", seqNo := 1,
          body := [.expr (.runtimeCall "a" [.reference 0 false] 0), .expr (.reference 0 false),
            .label ⟨".end", 0, []⟩, .expr (.runtimeCall "b" [.reference 0 false] 0)] }
        ⟨[{ value := .runtimeCall "f" [] 0 }], 0⟩).1 = .ok r ∧
      (r.body.walk r.operands).filterMap Expr.effect? =
        [.runtimeCall "a" .plain none 1, .runtimeCall "f" .plain none 0,
          .runtimeCall "b" .plain none 1] ∧
      r.body.outlines = [.label ⟨".end", 0, []⟩] := by
  have ht : Operands.IsSource [{ value := .runtimeCall "f" [] 0 }]
    | 0 => rfl
    | _ + 1 => rfl
  have hbuilt : Body.IsBuilt [{ value := .runtimeCall "f" [] 0 }]
      [.expr (.runtimeCall "a" [.reference 0 false] 0), .expr (.reference 0 false),
        .label ⟨".end", 0, []⟩, .expr (.runtimeCall "b" [.reference 0 false] 0)] := by
    refine ⟨ht, ?_, by decide⟩
    intro o ho
    rw [List.mem_singleton.1 ho]
    exact ⟨rfl, rfl⟩
  obtain ⟨r, _, _, _, hr, _⟩ := resolve_eq_ok (p :=
    { name := "main", seqNo := 1,
      body := [.expr (.runtimeCall "a" [.reference 0 false] 0), .expr (.reference 0 false),
        .label ⟨".end", 0, []⟩, .expr (.runtimeCall "b" [.reference 0 false] 0)] })
    (s := ⟨[{ value := .runtimeCall "f" [] 0 }], 0⟩) rfl hbuilt rfl
  obtain ⟨heffects, houtlines, _⟩ := resolve_effects _ _ r hbuilt hr
  refine ⟨r, hr, ?_, ?_⟩
  · rw [heffects]
    have hlines : Body.unfolded [{ value := .runtimeCall "f" [] 0 }]
        [.expr (.runtimeCall "a" [.reference 0 false] 0), .expr (.reference 0 false),
          .label ⟨".end", 0, []⟩, .expr (.runtimeCall "b" [.reference 0 false] 0)] =
      [⟨.expr (.runtimeCall "a" [.reference 0 false] 0), some (.many (.runtimeCall "a" .plain none)
          [.definition 0 false (.many (.runtimeCall "f" .plain none) [])])⟩,
        ⟨.expr (.reference 0 false), some (.reference 0 false)⟩, ⟨.label ⟨".end", 0, []⟩, none⟩,
        ⟨.expr (.runtimeCall "b" [.reference 0 false] 0), some (.many (.runtimeCall "b" .plain none)
          [.reference 0 false])⟩] := by
      have hexprs : Body.exprs
          [.expr (.runtimeCall "a" [.reference 0 false] 0), .expr (.reference 0 false),
            .label ⟨".end", 0, []⟩, .expr (.runtimeCall "b" [.reference 0 false] 0)] =
          [.runtimeCall "a" [.reference 0 false] 0, .reference 0 false,
            .runtimeCall "b" [.reference 0 false] 0] := rfl
      rw [Body.unfolded, hexprs]
      simp [Expr.unfoldAll, Expr.unfold, Expr.unfoldTo, Expr.unfoldStep, Expr.runtimeCall,
        Expr.unfoldSteps, Operands.value, Body.lines, Stmt.expr?]
    simp only [hlines, List.flatMap_cons, List.flatMap_nil, Line.effects, Tree.effects, Tree.walk]
    rfl
  · rw [houtlines]
    rfl

end Procedure
end Firmware
