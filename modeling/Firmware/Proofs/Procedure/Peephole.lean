import Firmware.Proofs.Procedure.NormalForm

/-!
# Simplifying a resolved body once more

The trees that resolving leaves are normal, since simplification is the last thing that happens to
each of them. So simplifying the body again changes no expression, no operand and no count. What it
still does is drop statements: increments are added after statements that do nothing were dropped, and
an increment that meets a drop leaves a bare reference behind. Such a statement is counted as a use, so
the counts no longer fit once it is gone (`peephole_of_resolve`).
-/

open List

namespace Firmware

open Token

/-! ## Rows that are finished -/

theorem Tree.normal_finish {u : OperandKey → Bool} {T : OperandKey → Int} {w : List Token} {xs : List Tree}
    (h : ∀ x ∈ xs, Agrees u x) : ∀ y ∈ finish u T w xs, y.Normal u ∧ Agrees u y := by
  induction xs generalizing T w with
  | nil => exact fun _ hy => absurd hy not_mem_nil
  | cons x rest ih =>
    rw [forall_mem_cons] at h
    rw [finish, forall_mem_cons]
    refine ⟨⟨normal_simplify u _, ?_⟩, ih h.2⟩
    exact (tidy_simplify ((reduces_retain T u w x).agrees h.1).2).2.agrees

/-- A body whose expressions are those of trees is made of lines with these trees. -/
theorem Body.map_toStmt_lines {body : Body} {xs : List Tree} (h : body.exprs = xs.map Tree.head) :
    (body.lines xs).map Line.toStmt = body := by
  induction body generalizing xs with
  | nil => rfl
  | cons s rest ih =>
    cases hs : s.expr? with
    | none =>
      rw [exprs, filterMap_cons_none hs] at h
      rw [lines_none hs, map_cons, ih h]
      rfl
    | some e =>
      rw [exprs, filterMap_cons_some hs] at h
      obtain ⟨x, xs, rfl, rfl, hrest⟩ := map_eq_cons_iff.1 h.symm
      rw [lines_some (by rw [hs]; rfl), map_cons, ih hrest.symm]
      congr 1
      -- the statement keeps the expression that it has
      cases s with
      | expr y => rw [Option.some.inj hs]; rfl
      | jump j =>
        obtain ⟨label, mode, value, terminate, target⟩ := j
        have hvalue : value = some x.head := hs
        rw [hvalue]
        rfl
      | _ => cases hs

namespace Line

variable {u : OperandKey → Bool} {ls : List Line} {key : OperandKey}

theorem tokens_append (ls ks : List Line) : tokens (ls ++ ks) = tokens ls ++ tokens ks := by
  rw [tokens, trees, filterMap_append, flatMap_append]
  rfl

/-- The line is a bare reference. -/
def IsBare (key : OperandKey) (l : Line) : Prop :=
  ∃ e noIncr, l = ⟨.expr e, some (.reference key noIncr)⟩

theorem isBare_iff {l : Line} (h : l.Fits) :
    l.IsBare key ↔ ∃ noIncr, l.toStmt = .expr (.reference key noIncr) := by
  constructor
  · rintro ⟨e, noIncr, rfl⟩
    exact ⟨noIncr, by simp only [toStmt, Tree.head, Stmt.withExpr]⟩
  · rintro ⟨noIncr, hl⟩
    obtain ⟨s, tree⟩ := l
    cases tree with
    | none =>
      have hs : s = .expr (.reference key noIncr) := hl
      rw [hs] at h
      exact absurd h Bool.noConfusion
    | some x =>
      cases s <;> simp only [toStmt, Stmt.withExpr, reduceCtorEq, Stmt.expr.injEq] at hl
      cases x <;> simp only [Tree.head, reduceCtorEq, Expr.reference.injEq] at hl
      rw [hl.1]
      exact ⟨_, _, rfl⟩

/-- Where a bare reference is dropped there are fewer references than before. -/
theorem references_place_lt {l : Line} (hl : l ∈ ls) (hbare : l.IsBare key) :
    references (tokens (place u ls)) key < references (tokens ls) key := by
  obtain ⟨e, noIncr, rfl⟩ := hbare
  obtain ⟨as, bs, rfl⟩ := append_of_mem hl
  have hplace : place u (as ++ ⟨.expr e, some (.reference key noIncr)⟩ :: bs) = place u as ++ place u bs := by
    rw [place, map_append, filter_append, ← place, map_cons, filter_cons_of_neg, ← place]
    simp [mapTree, isPure, Expr.isPure, Expr.isStateless]
  have hmiddle : tokens (⟨.expr e, some (.reference key noIncr)⟩ :: bs) = .refer key :: tokens bs := by
    rw [tokens, trees_cons_some, flatMap_cons, Tree.tokens_reference]
    rfl
  have has := (thins_place u as).references_le key
  have hbs := (thins_place u bs).references_le key
  rw [hplace, tokens_append, tokens_append, hmiddle, references_append, references_append, references_refer_self]
  omega

/-- Without bare references nothing that is counted is dropped. -/
theorem tokens_place_of_normal (hn : ∀ x ∈ trees ls, x.Normal u)
    (hbare : ∀ l ∈ ls, ∀ key, ¬ l.IsBare key) : tokens (place u ls) = tokens ls := by
  rw [place, map_simplify_of_normal hn]
  clear hn
  induction ls with
  | nil => rfl
  | cons l rest ih =>
    obtain ⟨hl, hrest⟩ := forall_mem_cons.1 hbare
    have hcons : ∀ ks : List Line, tokens (l :: ks) = tokens [l] ++ tokens ks := fun ks => tokens_append [l] ks
    rw [filter_cons]
    split
    · rw [hcons, ih hrest, ← hcons]
    · rename_i hpure
      rw [Bool.not_eq_true', Bool.not_eq_false] at hpure
      obtain ⟨⟨e, he⟩, x, hx, _⟩ := isPure_cases hpure
      have hnil : tokens [l] = [] := by
        obtain ⟨s, tree⟩ := l
        cases he
        cases hx
        rcases (Tree.pure_cases hpure).2 with ⟨ht, _⟩ | ⟨key, noIncr, rfl⟩
        · rw [tokens, trees_cons_some, flatMap_cons, ht]
          rfl
        · exact absurd ⟨e, noIncr, rfl⟩ (hl key)
      rw [hcons, hnil, ih hrest]
      rfl

end Line

theorem Resolved.fst_verifySharing (r : Resolved) (numbered : Nat) :
    (r.verifySharing numbered).1 = none ↔ Body.sharingFault r.operands r.body = none := by
  rw [verifySharing, Body.verifySharing, scope]
  cases Body.sharingFault r.operands r.body with
  | none => simp only
  | some fault => simp only [reduceCtorEq]

namespace Procedure

open Pass

variable {s : Scope}

/-- What resolving leaves stands for lines with normal trees. -/
theorem exists_lines_of_resolve {p : Procedure} {r : Resolved} (hb : p.body.IsBuilt s.operands)
    (hr : (p.resolve s).1 = .ok r) : ∃ (u : OperandKey → Bool) (ls : List Line), r.body.StandsFor r.operands ls ∧
      (∀ x ∈ Line.trees ls, x.Normal u ∧ Tree.Agrees u x) ∧ r.body.IsShared r.operands := by
  obtain ⟨hm, hbody, q, T, w, htable, hfin⟩ := of_resolve_eq_ok hb hr
  obtain ⟨_, _, hstart⟩ := exists_finishing hb hm 0
  have hexprs := Body.exprs_result s.operands p.body
  have hlen : (p.body.resolved s.operands).length = (p.body.result s.operands).exprs.length := by
    rw [hexprs, length_map]
  obtain ⟨hfits, htrees⟩ := Body.fits_lines hlen
  have hshared := Body.isShared_of_finishing hfin hexprs
  have heq := (Body.map_toStmt_lines hexprs).symm
  rw [htable, ← hbody] at hshared
  rw [← hbody] at hfits htrees heq
  refine ⟨s.operands.uncountable, r.body.lines (p.body.resolved s.operands), ?_, ?_, hshared⟩
  · refine ⟨⟨?_, ?_, Nat.le_refl _, ?_⟩, heq, hfits, ?_⟩
    · rw [htrees, ← htable]
      exact hfin.settled.stored
    · rw [htrees, ← htable]
      exact hfin.settled.below
    · rw [htrees]
      exact hfin.distinct
    · rw [Line.tokens, htrees]
      exact hfin.ordered
  · rw [htrees]
    exact Tree.normal_finish hstart.agrees

/-- Simplifying a resolved body once more changes no expression, no operand and no count, and drops
the statements that do nothing. So it gives the same statements where there are none of these; and
the counts still fit where none of these is a bare reference. -/
theorem peephole_of_resolve (p : Procedure) (s : Scope) (r : Resolved) (hb : p.body.IsBuilt s.operands)
    (hr : (p.resolve s).1 = .ok r) :
    r.peephole.1 = r.body.dropPure ∧ r.peephole.2.body = r.body ∧
    (∀ key, r.peephole.2.operands.value key = r.operands.value key ∧
      (r.peephole.2.operands.entry key).totalUses = (r.operands.entry key).totalUses) ∧
    (r.peephole.1 = r.body ↔ ∀ st ∈ r.body, st.isPure = false) ∧
    ∀ numbered, ((r.simplified.verifySharing numbered).1 = none ↔
      ∀ key noIncr, .expr (.reference key noIncr) ∉ r.body) := by
  obtain ⟨u, ls, hls, hnormal, hshared⟩ := exists_lines_of_resolve hb hr
  have hn : ∀ x ∈ Line.trees ls, x.Normal u := fun x hx => (hnormal x hx).1
  obtain ⟨q, hq, hpq, hs⟩ := Resolved.peephole_eq hls fun x hx => (hnormal x hx).2
  have hplace := Resolved.standsFor_simplified hls hs
  have hid : (Line.trees ls).map (Tree.simplify u) = Line.trees ls :=
    (map_congr_left fun x hx => Tree.simplify_of_normal (hn x hx)).trans (map_id' _)
  rw [hid] at hpq
  rw [Line.map_simplify_of_normal hn, ← hls.eq] at hq
  have hsame := hpq.same hls.stored
  have hdrop : r.body.dropPure = (Line.place u ls).map Line.toStmt := by
    rw [hls.eq, Line.dropPure_map_toStmt hls.fits, Line.place, Line.map_simplify_of_normal hn]
  refine ⟨by rw [hq, hdrop], by rw [hq], by rw [hq]; exact hsame, ?_, ?_⟩
  · have hfirst : r.peephole.1 = r.body.dropPure := by rw [hq, hdrop]
    rw [hfirst, Body.dropPure, filter_eq_self]
    simp only [Bool.not_eq_true']
  · intro numbered
    -- the tokens of what is left are those of the lines, over the same counts
    have htokens : Body.tokens q.table ((Line.place u ls).map Line.toStmt) = Line.tokens (Line.place u ls) :=
      Body.tokens_eq hplace.exprs hplace.stored hplace.below
    have hall : r.body.tokens r.operands = Line.tokens ls := Body.tokens_eq hls.exprs hls.stored hls.below
    have hfault := Body.sharingFault_eq_none_iff (t := q.table) (by rw [htokens]; exact hplace.ordered)
      (by rw [htokens]; exact hplace.nodup.sublist (Tree.defined_sublist_flatMap_keys _))
    have htotal : ∀ key ∈ defined (Line.tokens ls),
        (q.table.entry key).totalUses = 1 + (references (Line.tokens ls) key : Int) := by
      rw [← hall]
      exact fun key hk => (hsame key).2.trans (hshared.total key hk)
    have hops : r.simplified.operands = q.table := by rw [Resolved.simplified, hq]
    have hbody : r.simplified.body = (Line.place u ls).map Line.toStmt := by rw [Resolved.simplified, hq]
    rw [Resolved.fst_verifySharing, hops, hbody, hfault, htokens, (Line.thins_place u ls).defined_eq, hls.eq]
    constructor
    · intro h key noIncr hmem
      obtain ⟨l, hl, hstmt⟩ := mem_map.1 hmem
      have hbare := (Line.isBare_iff (hls.fits l hl)).2 ⟨noIncr, hstmt⟩
      have hlt := Line.references_place_lt (u := u) hl hbare
      have hmem : key ∈ defined (Line.tokens ls) :=
        (hls.ordered.mem (references_pos_iff.1 (Nat.zero_lt_of_lt hlt))).resolve_left not_mem_nil
      have hleft := h key hmem
      rw [htotal key hmem] at hleft
      omega
    · intro h
      rw [Line.tokens_place_of_normal hn]
      · exact htotal
      · intro l hl key hbare
        obtain ⟨noIncr, hstmt⟩ := (Line.isBare_iff (hls.fits l hl)).1 hbare
        exact h key noIncr (mem_map.2 ⟨l, hl, hstmt⟩)

/-- A shared call that is passed on twice. -/
theorem peephole_of_resolve_passedOn :
    ∃ r, (resolve
        { name := "main", seqNo := 1,
          body := [.expr (.call "a" [.reference 0 false]), .expr (.call "b" [.reference 0 false])] }
        ⟨[{ value := .call "f" [] }], 0⟩).1 = .ok r ∧ r.peephole.1 = r.body := by
  have ht : Operands.IsSource [{ value := .call "f" [] }]
    | 0 => rfl
    | _ + 1 => rfl
  have h := peephole_of_resolve
    { name := "main", seqNo := 1,
      body := [.expr (.call "a" [.reference 0 false]), .expr (.call "b" [.reference 0 false])] }
    ⟨[{ value := .call "f" [] }], 0⟩ _ ⟨ht, by decide, by decide⟩ rfl
  exact ⟨_, rfl, h.2.2.2.1.2 (by decide)⟩

/-- Where the call is dropped in between, an increment and the drop leave a bare reference, which
simplifying once more drops; then there is one reference and a total of three. -/
theorem peephole_of_resolve_dropped :
    ∃ r, (resolve
        { name := "main", seqNo := 1,
          body := [.expr (.call "a" [.reference 0 false]), .expr (.unary .decr (.reference 0 false)),
            .expr (.call "b" [.reference 0 false])] }
        ⟨[{ value := .call "f" [] }], 0⟩).1 = .ok r ∧
      r.body[1]? = some (.expr (.reference 0 false)) ∧ r.body.length = 3 ∧ r.peephole.1.length = 2 ∧
      (r.verifySharing 1).1 = none ∧ (r.simplified.verifySharing 1).1 = some (.useCountMismatch 1 3 1) :=
  ⟨_, rfl, rfl, rfl, rfl, rfl, rfl⟩

end Procedure
end Firmware
