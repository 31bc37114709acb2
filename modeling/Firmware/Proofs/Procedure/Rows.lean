import Firmware.Proofs.Procedure.Linking
import Firmware.Proofs.Procedure.Stages

/-!
# The rows of a body

The rows of trees that a body under construction goes through while it is resolved: what it unfolds
to (`unfolded`), what is left once definitions are placed (`placed`), once uses are counted
(`counted`), and at the end (`resolved`). Statements that do more than evaluate an expression stay
through all of it (`outlines_result`), and so jumps find their labels (`linked_result`).
-/

namespace Firmware

open List Token

/-- A body under construction over a table of operands: nothing is defined or counted yet. -/
structure Body.IsBuilt (t : Operands) (body : Body) : Prop where
  operands : t.IsSource
  fresh : ∀ o ∈ t, o.totalUses = 0 ∧ o.currentUses = 0
  exprs : ∀ e ∈ body.exprs, e.isSource t.length = true

/-! ## Construction -/

namespace Expr

theorem isSource_mono {n m : Nat} (h : n ≤ m) {e : Expr} (he : e.isSource n = true) : e.isSource m = true := by
  induction e using Expr.induct with
  | unary op x ih => exact ih he
  | store target value iht ihv =>
    rw [isSource, Bool.and_eq_true] at he ⊢
    exact ⟨iht he.1, ihv he.2⟩
  | many op args ih =>
    rw [isSource, areSource_iff] at he ⊢
    exact fun x hx => ih x hx (he x hx)
  | reference key noIncr =>
    rw [isSource, Nat.blt_eq] at he ⊢
    exact Nat.lt_of_lt_of_le he h
  | _ => exact he

end Expr

namespace Body.IsBuilt

/-- Nothing is built yet. -/
theorem empty : Body.IsBuilt [] [] := ⟨fun _ => rfl, fun _ h => absurd h not_mem_nil, fun _ h => absurd h not_mem_nil⟩

/-- Statements may be appended. -/
theorem emit {t : Operands} {p : Procedure} (h : p.body.IsBuilt t) {s : Stmt}
    (hs : ∀ e, s.expr? = some e → e.isSource t.length = true) : (p.emit s).body.IsBuilt t := by
  refine ⟨h.operands, h.fresh, ?_⟩
  intro e he
  rw [Procedure.emit, Body.exprs, filterMap_append, mem_append] at he
  rcases he with he | he
  · exact h.exprs e he
  · obtain ⟨s', hs', he'⟩ := mem_filterMap.1 he
    rw [mem_singleton.1 hs'] at he'
    exact hs e he'

/-- Operands may be added. -/
theorem add {t : Operands} {body : Body} (h : body.IsBuilt t) {e : Expr}
    (he : e.isSource t.length = true) : body.IsBuilt (t ++ [{ value := e }]) := by
  refine ⟨?_, ?_, ?_⟩
  · intro key
    rw [Operands.value]
    rcases Nat.lt_trichotomy key t.length with hlt | heq | hgt
    · rw [getElem?_append_left hlt]
      exact h.operands key
    · rw [heq, getElem?_concat_length]
      exact he
    · rw [getElem?_eq_none (by rw [length_append]; exact hgt)]
      rfl
  · intro o ho
    rcases mem_append.1 ho with ho | ho
    · exact h.fresh o ho
    · rw [mem_singleton.1 ho]
      exact ⟨rfl, rfl⟩
  · intro x hx
    rw [length_append]
    exact Expr.isSource_mono (Nat.le_add_right _ _) (h.exprs x hx)

/-- Expressions may be shared, and what stands for them is under construction too. -/
theorem share {s : Scope} {body : Body} (h : body.IsBuilt s.operands) {e : Expr}
    (he : e.isSource s.operands.length = true) (noIncr : Bool) :
    body.IsBuilt (s.share e noIncr).2.operands ∧
      (s.share e noIncr).1.isSource (s.share e noIncr).2.operands.length = true := by
  unfold Scope.share
  split
  · exact ⟨h, he⟩
  · exact ⟨h, rfl⟩
  · refine ⟨h.add he, ?_⟩
    simp only [Scope.add, Expr.isSource, Nat.blt_eq, length_append]
    exact Nat.lt_succ_self _

end Body.IsBuilt

/-! ## Rows -/

namespace Line

variable {ls : List Line} {l : Line}

/-- The line with another tree. -/
def mapTree (f : Tree → Tree) (l : Line) : Line := ⟨l.stmt, l.tree.map f⟩

/-- Whether the line only evaluates an expression that may be dropped. -/
def isPure (l : Line) : Bool :=
  match l.stmt with
  | .expr _ => l.tree.any fun x => x.head.isPure
  | _ => false

/-- The lines that are left once trees are simplified and lines that do nothing dropped. -/
def place (u : OperandKey → Bool) (ls : List Line) : List Line :=
  (ls.map (mapTree (Tree.simplify u))).filter fun l => !l.isPure

theorem Fits.mapTree (h : l.Fits) (f : Tree → Tree) : (l.mapTree f).Fits := by
  rw [Fits, Line.mapTree, Option.isSome_map]
  exact h

theorem trees_map_mapTree (f : Tree → Tree) (ls : List Line) : trees (ls.map (mapTree f)) = (trees ls).map f := by
  rw [trees, trees, filterMap_map, map_filterMap]
  rfl

theorem isPure_toStmt (h : l.Fits) : l.toStmt.isPure = l.isPure := by
  obtain ⟨s, tree⟩ := l
  cases s with
  | expr x =>
    cases tree with
    | none => exact absurd h Bool.noConfusion
    | some y => rfl
  | _ => cases tree <;> rfl

theorem dropPure_map_toStmt (h : ∀ l ∈ ls, l.Fits) :
    Body.dropPure (ls.map toStmt) = (ls.filter fun l => !l.isPure).map toStmt := by
  rw [Body.dropPure, filter_map]
  congr 1
  refine filter_congr fun l hl => ?_
  rw [Function.comp_apply, isPure_toStmt (h l hl)]

/-- A line that may be dropped evaluates an expression that refers to one operand at most. -/
theorem isPure_cases (h : l.isPure = true) : (∃ e, l.stmt = .expr e) ∧
    ∃ x, l.tree = some x ∧ x.keys = [] ∧ (x.tokens = [] ∨ ∃ key, x.tokens = [.refer key]) := by
  obtain ⟨s, tree⟩ := l
  cases s with
  | expr e =>
    refine ⟨⟨e, rfl⟩, ?_⟩
    cases tree with
    | none => exact absurd h Bool.false_ne_true
    | some x =>
      obtain ⟨hkeys, htokens⟩ := Tree.pure_cases h
      refine ⟨x, rfl, hkeys, ?_⟩
      rcases htokens with ⟨htokens, _⟩ | ⟨key, noIncr, rfl⟩
      · exact .inl htokens
      · exact .inr ⟨key, Tree.tokens_reference key noIncr⟩
  | _ => exact absurd h Bool.false_ne_true

theorem place_cons (u : OperandKey → Bool) (l : Line) (ls : List Line) :
    place u (l :: ls) = if (l.mapTree (Tree.simplify u)).isPure then place u ls
      else l.mapTree (Tree.simplify u) :: place u ls := by
  rw [place, map_cons, filter_cons]
  cases (l.mapTree (Tree.simplify u)).isPure <;> rfl

/-- Placing keeps effects and definitions in their order; what goes away are references. -/
theorem thins_place (u : OperandKey → Bool) (ls : List Line) : Token.Thins (tokens ls) (tokens (place u ls)) := by
  induction ls with
  | nil => exact .nil
  | cons l rest ih =>
    obtain ⟨s, tree⟩ := l
    rw [place_cons]
    cases tree with
    | none =>
      split
      · exact ih
      · exact ih
    | some x =>
      have hx := Tree.thins_simplify u x
      rw [tokens, trees_cons_some, flatMap_cons]
      split
      · rename_i hpure
        obtain ⟨_, y, hy, _, htokens⟩ := isPure_cases hpure
        cases hy
        have hnil : Token.Thins x.tokens [] := by
          rcases htokens with htokens | ⟨key, htokens⟩
          · rwa [htokens] at hx
          · rw [htokens] at hx
            exact hx.trans (.drop key .nil)
        exact hnil.append ih
      · exact hx.append ih

theorem keys_place (u : OperandKey → Bool) (ls : List Line) :
    ((trees (place u ls)).flatMap Tree.keys).Sublist ((trees ls).flatMap Tree.keys) := by
  induction ls with
  | nil => exact List.Sublist.refl _
  | cons l rest ih =>
    obtain ⟨s, tree⟩ := l
    rw [place_cons]
    cases tree with
    | none =>
      split
      · exact ih
      · exact ih
    | some x =>
      rw [trees_cons_some, flatMap_cons]
      split
      · exact ih.trans (sublist_append_right _ _)
      · exact (Tree.keys_simplify u x).append ih

theorem mem_trees_place {u : OperandKey → Bool} {y : Tree} (h : y ∈ trees (place u ls)) :
    y ∈ (trees ls).map (Tree.simplify u) := by
  rw [← trees_map_mapTree]
  exact (filter_sublist.filterMap tree).subset h

theorem fits_place {u : OperandKey → Bool} (h : ∀ l ∈ ls, l.Fits) : ∀ l ∈ place u ls, l.Fits := by
  intro l hl
  obtain ⟨l₀, hl₀, rfl⟩ := mem_map.1 (mem_filter.1 hl).1
  exact (h l₀ hl₀).mapTree _

/-- The outlines of the lines that are left are those of all. -/
theorem outlines_place (u : OperandKey → Bool) (ls : List Line) :
    Body.outlines ((place u ls).map stmt) = Body.outlines (ls.map stmt) := by
  induction ls with
  | nil => rfl
  | cons l rest ih =>
    rw [place_cons]
    split
    · rename_i hpure
      obtain ⟨e, he⟩ := (isPure_cases hpure).1
      have hnone : l.stmt.outline? = none := by
        have hs : l.stmt = .expr e := he
        rw [hs]
        rfl
      rw [ih, map_cons, Body.outlines, Body.outlines, filterMap_cons_none hnone]
    · rw [map_cons, map_cons, Body.outlines, Body.outlines, filterMap_cons, filterMap_cons]
      rw [Body.outlines, Body.outlines] at ih
      rw [ih]
      rfl

/-- Other trees for a body that is made of lines. -/
theorem map_toStmt_lines (h : ∀ l ∈ ls, l.Fits) (f : Tree → Tree) :
    (Body.lines (ls.map toStmt) ((trees ls).map f)).map toStmt = (ls.map (mapTree f)).map toStmt := by
  induction ls with
  | nil => rfl
  | cons l rest ih =>
    obtain ⟨hl, hrest⟩ := forall_mem_cons.1 h
    have hexpr := expr?_toStmt hl
    obtain ⟨s, tree⟩ := l
    cases tree with
    | none =>
      rw [map_cons, trees_cons_none, Body.lines_none hexpr, map_cons, ih hrest]
      rfl
    | some x =>
      rw [map_cons, trees_cons_some, map_cons,
        Body.lines_some (by rw [hexpr]; rfl), map_cons, ih hrest, map_cons, map_cons]
      congr 1
      cases s <;> rfl

end Line

namespace Body

variable {t : Operands} {body : Body}

/-- The lines of a body under construction, with its operands unfolded. -/
def unfolded (t : Operands) (body : Body) : List Line :=
  body.lines (Expr.unfoldAll t [] body.exprs)

/-- The lines of a body once its definitions are placed. -/
def placed (t : Operands) (body : Body) : List Line :=
  Line.place t.uncountable (body.unfolded t)

/-- Whether an operand is used at one place only. -/
def usedOnce (t : Operands) (body : Body) (key : OperandKey) : Bool :=
  uses (Line.tokens (body.unfolded t)) key == 1

/-- The lines of a body once its uses are counted. -/
def counted (t : Operands) (body : Body) : List Line :=
  (body.placed t).map (Line.mapTree (Tree.strip (body.usedOnce t)))

/-- The uses of an operand once they are counted. What is not defined keeps the count of the uses
that were met when definitions were placed, with its sign turned. -/
def totals (t : Operands) (body : Body) (key : OperandKey) : Int :=
  if key ∈ defined (Line.tokens (body.placed t)) then
    if body.usedOnce t key then -1
    else 1 + (references (Line.tokens (body.placed t)) key : Int)
  else -(uses (Line.tokens (body.unfolded t)) key : Int)

/-- The trees of a body once increments are added. -/
def resolved (t : Operands) (body : Body) : List Tree :=
  Tree.finish t.uncountable (body.totals t) [] (Line.trees (body.counted t))

/-- The body with its jumps linked and with increments. -/
def retained (t : Operands) (body : Body) : Body :=
  (lines (linkJumps ((body.counted t).map Line.toStmt)) (body.resolved t)).map Line.toStmt

/-- The body that resolving gives. -/
def result (t : Operands) (body : Body) : Body := (body.retained t).linkBreakpoints

theorem lines_map (f : Tree → Tree) (body : Body) (xs : List Tree) :
    body.lines (xs.map f) = (body.lines xs).map (Line.mapTree f) := by
  induction body generalizing xs with
  | nil => rfl
  | cons s rest ih =>
    cases hs : s.expr? with
    | none => rw [lines_none hs, lines_none hs, map_cons, ih]; rfl
    | some e =>
      have hsome : s.expr?.isSome = true := by rw [hs]; rfl
      cases xs with
      | nil =>
        simp only [lines, hs, map_nil, map_cons]
        rw [← ih, map_nil]
        rfl
      | cons x xs =>
        rw [map_cons, lines_some hsome, lines_some hsome, map_cons, ih]
        rfl

theorem length_unfoldAll (t : Operands) (seen : List OperandKey) (es : List Expr) :
    (Expr.unfoldAll t seen es).length = es.length := by
  induction es generalizing seen with
  | nil => rfl
  | cons e rest ih => rw [Expr.unfoldAll, length_cons, length_cons, ih]

section

variable (t : Operands) (body : Body)

theorem fits_unfolded : (∀ l ∈ body.unfolded t, l.Fits) ∧
      Line.trees (body.unfolded t) = Expr.unfoldAll t [] body.exprs :=
  fits_lines (length_unfoldAll t [] body.exprs)

theorem fits_placed : ∀ l ∈ body.placed t, l.Fits :=
  Line.fits_place (fits_unfolded t body).1

theorem fits_counted : ∀ l ∈ body.counted t, l.Fits := by
  intro l hl
  obtain ⟨l₀, hl₀, rfl⟩ := mem_map.1 hl
  exact (fits_placed t body l₀ hl₀).mapTree _

theorem trees_counted : Line.trees (body.counted t) = (Line.trees (body.placed t)).map (Tree.strip (body.usedOnce t)) :=
  Line.trees_map_mapTree _ _

theorem tokens_counted : Line.tokens (body.counted t) = without (body.usedOnce t) (Line.tokens (body.placed t)) := by
  rw [Line.tokens, trees_counted, Line.tokens]
  induction Line.trees (body.placed t) with
  | nil => rfl
  | cons x rest ih =>
    rw [map_cons, flatMap_cons, flatMap_cons, ih, Tree.tokens_strip, without_append]

theorem thins_placed : Token.Thins (Line.tokens (body.unfolded t)) (Line.tokens (body.placed t)) :=
  Line.thins_place _ _

theorem usedOnce_iff (key : OperandKey) : body.usedOnce t key = true ↔
      -(uses (Line.tokens (body.unfolded t)) key : Int) = -1 := by
  rw [usedOnce, beq_iff_eq]
  omega

end

/-- What is defined is used. -/
theorem uses_pos {key : OperandKey} (hk : key ∈ defined (Line.tokens (body.placed t))) :
    0 < uses (Line.tokens (body.unfolded t)) key := by
  rw [(thins_placed t body).defined_eq] at hk
  have hpos := count_pos_iff.2 (mem_defined.1 hk)
  rw [uses]
  omega

/-- The total of an operand that is still defined is its definition and the references to it. -/
theorem totals_eq {key : OperandKey} (hk : key ∈ defined (Line.tokens (body.counted t))) :
    body.totals t key = 1 + (references (Line.tokens (body.counted t)) key : Int) := by
  rw [tokens_counted, defined_without, mem_filter, Bool.not_eq_true'] at hk
  rw [totals, if_pos hk.1, if_neg (by rw [hk.2]; exact Bool.false_ne_true), tokens_counted, references_without]

namespace IsBuilt

variable {t : Operands} {body : Body}

theorem unfolded (h : body.IsBuilt t) : Tree.UnfoldedAll t.length [] (Line.trees (body.unfolded t)) := by
  rw [(fits_unfolded t body).2]
  exact Tree.unfoldedAll_unfoldAll h.operands h.exprs []

theorem dominated_placed (h : body.IsBuilt t) : Token.Dominated [] (Line.tokens (body.placed t)) :=
  (thins_placed t body).dominated h.unfolded.dominated

/-- What is referred to is used at its definition too. -/
theorem usedOnce_eq_false (h : body.IsBuilt t) {key : OperandKey}
    (hk : .refer key ∈ Line.tokens (body.placed t)) : body.usedOnce t key = false := by
  have hpos := references_pos_iff.2 hk
  have hle := (thins_placed t body).references_le key
  have hdef : key ∈ defined (Line.tokens (body.unfolded t)) := by
    rw [← (thins_placed t body).defined_eq]
    rcases h.dominated_placed.mem hk with hmem | hmem
    · exact absurd hmem not_mem_nil
    · exact hmem
  have hone := count_pos_iff.2 (mem_defined.1 hdef)
  rw [usedOnce, beq_eq_false_iff_ne, uses]
  omega

theorem dominated_counted (h : body.IsBuilt t) : Token.Dominated [] (Line.tokens (body.counted t)) := by
  rw [tokens_counted]
  refine h.dominated_placed.without ?_
  intro key hgone hk
  rw [h.usedOnce_eq_false hk] at hgone
  exact Bool.false_ne_true hgone

end IsBuilt

/-! ## The resolved body -/

theorem length_finish (u : OperandKey → Bool) (T : OperandKey → Int) (w : List Token)
    (xs : List Tree) : (Tree.finish u T w xs).length = xs.length := by
  induction xs generalizing T w with
  | nil => rfl
  | cons x rest ih => rw [Tree.finish, length_cons, length_cons, ih]

section

variable (t : Operands) (body : Body)

theorem length_resolved : (body.resolved t).length = (exprs (linkJumps ((body.counted t).map Line.toStmt))).length := by
  rw [exprs_linkJumps, exprs_map_toStmt (fits_counted t body), length_map, resolved, length_finish]

theorem exprs_retained : (body.retained t).exprs = (body.resolved t).map Tree.head := by
  obtain ⟨hfits, htrees⟩ := fits_lines (length_resolved t body)
  rw [retained, exprs_map_toStmt hfits, htrees]

theorem exprs_result : (body.result t).exprs = (body.resolved t).map Tree.head := by
  rw [result, exprs_linkBreakpoints, exprs_retained]

theorem skeletons_result : (body.result t).skeletons = skeletons (linkJumps ((body.counted t).map Line.toStmt)) := by
  rw [result, skeletons_linkBreakpoints, retained, skeletons_lines (length_resolved t body)]

theorem outlines_placed : outlines ((body.placed t).map Line.toStmt) = body.outlines := by
  rw [outlines_of_skeletons (skeletons_map_toStmt (fits_placed t body)), placed,
    Line.outlines_place, unfolded, stmts_lines]

theorem outlines_counted : outlines ((body.counted t).map Line.toStmt) = body.outlines := by
  have hstmts : (body.counted t).map Line.stmt = (body.placed t).map Line.stmt := by
    rw [counted, map_map]
    rfl
  rw [outlines_of_skeletons (skeletons_map_toStmt (fits_counted t body)), hstmts,
    ← outlines_of_skeletons (skeletons_map_toStmt (fits_placed t body)), outlines_placed]

/-- The outlines of the resolved body are those of the body under construction. -/
theorem outlines_result : (body.result t).outlines = body.outlines := by
  rw [outlines_of_skeletons (skeletons_result t body), outlines_linkJumps, outlines_counted]

end

/-- In the resolved body jumps and labels point at each other. -/
theorem linked_result (h : body.missing = []) : (body.result t).IsLinked := by
  refine (linked_linkJumps ?_).of_skeletons (skeletons_result t body)
  rw [missing_of_outlines (outlines_counted t body), h]

end Body

end Firmware
