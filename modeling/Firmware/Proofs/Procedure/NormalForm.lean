import Firmware.Proofs.Procedure.Resolving

/-!
# The normal form of a body

Simplification goes over a tree once, from the leaves up, and still leaves nothing that it would
simplify further: what it leaves is normal (`normal_simplify`), and a normal tree is left as it is
(`simplify_of_normal`). Operators that give way uncover trees that are normal already, and whether a
value is counted is not changed by what is simplified around it, so no rule opens the way for another
one further down.

For a body this means that running the pass over it a second time changes nothing, neither statements
nor operands nor their counts.
-/

open List

namespace Firmware

open Expr Token

namespace Tree

variable {x : Tree} {u : OperandKey → Bool} {t : Operands} {done : List Tree}

/-! ## Normal trees -/

theorem dropItems_eq_self {xs : List Tree} (h : ∀ x ∈ xs.dropLast, x.head.isPure = false) : dropItems xs = xs := by
  induction xs with
  | nil => rfl
  | cons x rest ih =>
    cases rest with
    | nil => rfl
    | cons y rest =>
      rw [dropLast_cons_cons, forall_mem_cons] at h
      rw [dropItems, h.1, ih h.2]
      · rfl
      · exact cons_ne_nil y rest

theorem simplify_of_normal (h : x.Normal u) : x.simplify u = x := by
  induction x using inductInlined with
  | leaf l => rw [simplify]
  | reference key noIncr => rw [simplify]
  | definition key noIncr x ih => rw [Normal] at h; rw [simplify, ih h]
  | inlined key x hx ih => rw [Normal] at h; rw [simplify_inlined hx, ih h]
  | store target value iht ihv => rw [Normal] at h; rw [simplify, iht h.1, ihv h.2]
  | unary op x ih => rw [Normal] at h; rw [simplify, ih h.1, h.2, Option.getD_none]
  | inlinedUnary key op x ih => rw [Normal, Normal] at h; rw [simplify, ih h.1, h.2, Option.getD_none]
  | many op args ih =>
    rw [Normal] at h
    have hargs : args.map (simplify u) = args := (map_congr_left fun x hx => ih x hx (h.1 x hx)).trans (map_id' args)
    rw [simplify, hargs]
    cases op with
    | sequence => rw [collapseMany, dropItems_eq_self (h.2 rfl)]
    | runtimeCall name convention mask => rfl
    | procedureCall callee => rfl

/-! ## Answers read off a table -/

/-- In a row whose operands are in the table the answer for an operand is that of what it holds. -/
theorem uncountableTo_eq (h : Rooted t.length done t) (hc : ∀ x ∈ done, ∀ key, .refer key ∈ x.tokens →
      key ∈ done.flatMap keys) {depth : Nat} {key : OperandKey} (hk : key ∈ done.flatMap keys) (hd : key ≤ depth) :
    uncountableTo t depth (t.value key) = uncountableStep t.uncountable (t.value key) := by
  induction depth using Nat.strongRecOn generalizing key with
  | ind depth ih =>
    obtain ⟨x, hx, hk⟩ := mem_flatMap.1 hk
    obtain ⟨⟨_, y⟩, hy, rfl⟩ := mem_map.1 hk
    have hinner : ∀ j, y.Mentions j → j < _ ∧ j ∈ done.flatMap keys :=
      fun j hj => mentions_of_binding (h.below x hx) hx (hc x hx) hy hj
    rw [(h.stored x hx _ y hy).2]
    cases depth with
    | zero => exact (steps_congr fun j hj => absurd (Nat.lt_of_lt_of_le (hinner j hj).1 hd) (Nat.not_lt_zero j)).2
    | succ depth =>
      refine (steps_congr fun j hj => ?_).2
      obtain ⟨hlt, hmem⟩ := hinner j hj
      have hjd : j < depth + 1 := Nat.lt_of_lt_of_le hlt hd
      rw [ih depth (Nat.lt_succ_self depth) hmem (Nat.le_of_lt_succ hjd), Operands.uncountable,
        ih j hjd hmem (Nat.le_refl j)]

theorem agrees_uncountable (h : Rooted t.length done t) (hd : Token.Dominated [] (done.flatMap tokens)) :
    ∀ x ∈ done, Agrees t.uncountable x := by
  intro x hx key y hy
  have hc : ∀ x ∈ done, ∀ key, .refer key ∈ x.tokens → key ∈ done.flatMap keys := by
    intro x hx key hk
    rcases hd.mem (mem_flatMap.2 ⟨x, hx, hk⟩) with hmem | hmem
    · exact absurd hmem not_mem_nil
    · exact (defined_sublist_flatMap_keys done).subset hmem
  have hk : key ∈ done.flatMap keys := mem_flatMap.2 ⟨x, hx, mem_map_of_mem hy⟩
  rw [← (h.stored x hx key y hy).2, ← uncountableTo_eq h hc hk (Nat.le_refl key), Operands.uncountable]

end Tree

/-! ## Nodes of a normal tree -/

namespace Expr

/-- Whether the expression is an increment, also one that stands inlined. -/
def isIncrement (t : Operands) : Expr → Bool
  | .unary .incr _ => true
  | .inlined key =>
    match t.value key with
    | .unary .incr _ => true
    | _ => false
  | _ => false

/-- A node that simplification leaves alone: counting stands around counted values only, a drop does
not stand around an increment, and a sequence has no items that may be dropped but the last. -/
def IsNormal (t : Operands) : Expr → Prop
  | .unary .incr x => x.isUncounted t = false
  | .unary .decr x => x.isUncounted t = false ∧ x.isIncrement t = false
  | .many .sequence items => ∀ x ∈ items.dropLast, x.isPure = false
  | _ => True

end Expr

namespace Tree

variable {x : Tree} {u : OperandKey → Bool} {t : Operands} {done : List Tree}

theorem isIncrement_head (h : Stored t x) : x.head.isIncrement t = x.incremented.isSome := by
  cases x with
  | unary op y => rw [head]; cases op <;> rfl
  | inlined key z =>
    rw [head, isIncrement, (Enters.inlined.stored_iff.1 h).2.1]
    cases z with
    | unary op y => rw [head]; cases op <;> rfl
    | _ => rw [head]; rfl
  | _ => rw [head]; rfl

/-- An operator that does not give way is a normal node, once the table has the answers. -/
theorem isNormal_unary {op : UnaryOp} (hs : Stored t x) (hu : x.head.isUncounted t = uncountedStep u x.head)
    (hc : collapse u op x = none) : (Expr.unary op x.head).IsNormal t := by
  cases op with
  | incr =>
    rw [collapse, ite_eq_right_iff] at hc
    rw [IsNormal, hu]
    exact eq_false_of_ne_true fun h => Option.some_ne_none _ (hc h)
  | decr =>
    rw [collapse] at hc
    rw [IsNormal, hu, isIncrement_head hs]
    split at hc
    · cases hc
    · exact ⟨eq_false_of_ne_true ‹_›, by rw [hc]; rfl⟩
  | field name index => trivial
  | instanceOf className => trivial

theorem Alike.normal {xs : List Tree} (h : Over xs x) (hn : x.Normal u) : ∀ y ∈ xs, y.Normal u := by
  cases h with
  | leaf l => exact fun _ h => absurd h not_mem_nil
  | unary op x => rw [Normal] at hn; exact forall_mem_singleton.2 hn.1
  | store x y => rw [Normal] at hn; exact forall_mem_cons.2 ⟨hn.1, forall_mem_singleton.2 hn.2⟩
  | many op xs => rw [Normal] at hn; exact hn.1

/-- Every node of a normal tree whose operands are settled is normal. -/
theorem Normal.walk (h : Settled u t done) (hs : Stored t x) (hb : x.Below t.length)
    (hm : ∀ key, x.Mentions key → key ∈ done.flatMap keys) (hn : x.Normal u) : ∀ e ∈ x.walk, e.IsNormal t := by
  induction x using inductOver with
  | above xs x hx ih =>
    have hm' : ∀ y ∈ xs, ∀ key, y.Mentions key → key ∈ done.flatMap keys :=
      fun y hy key hk => hm key (hx.mentions_iff.2 ⟨y, hy, hk⟩)
    have hs' := hx.stored_iff.1 hs
    have hb' := hx.below_iff.1 hb
    rw [hx.walk_eq, forall_mem_cons]
    constructor
    · cases hx with
      | leaf l => rw [head]; trivial
      | unary op y =>
        rw [Normal] at hn
        rw [head]
        have hu := h.isUncounted_of_mentions (hb' y mem_cons_self) (hm' y mem_cons_self)
        exact isNormal_unary (hs' y mem_cons_self) hu hn.2
      | store y z => rw [head]; trivial
      | many op xs =>
        rw [Normal] at hn
        rw [head]
        cases op with
        | sequence => rw [IsNormal, ← map_dropLast, forall_mem_map]; exact hn.2 rfl
        | _ => trivial
    · intro e he
      obtain ⟨y, hy, he⟩ := mem_flatMap.1 he
      exact ih y hy (hs' y hy) (hb' y hy) (hm' y hy) (hx.normal hn y hy) e he
  | reference key noIncr => rw [Tree.walk, forall_mem_singleton]; trivial
  | enters key x y hy ih =>
    obtain ⟨hk, hbx⟩ := hy.below_iff.1 hb
    have hx := ih (hy.stored_iff.1 hs).2.2 (hbx.mono (Nat.le_of_lt hk)) fun j hj => hm j (hy.mentions hj)
    cases hy with
    | definition noIncr =>
      rw [Normal] at hn
      rw [Tree.walk, forall_mem_cons]
      exact ⟨trivial, hx hn⟩
    | inlined => rw [Normal] at hn; rw [Tree.walk]; exact hx hn

end Tree

/-! ## Running the pass over a body -/

namespace Pass

open Firmware.Tree

variable {p q : Pass} {u : OperandKey → Bool} {n : Nat} {done xs : List Tree}

/-- The pass leaves the simplified trees of a row. -/
theorem runs_simplify (hn : n = p.table.length) (h : Ready u n done xs p) :
    ∃ q, Runs Pass.simplify (xs.map head) (xs.map (Tree.simplify u)) p q ∧
      Simplifies xs (xs.map (Tree.simplify u)) p q ∧ Settled u q.table (done ++ xs.map (Tree.simplify u)) := by
  induction xs generalizing done p with
  | nil => exact ⟨p, .nil p, Simplifies.nil p, by rw [map_nil, append_nil]; exact h.settled⟩
  | cons x rest ih =>
    obtain ⟨q, hq, hpq⟩ := run_simplify (by rw [← hn]; exact h.first)
    obtain ⟨r, hr, hqr, hsettled⟩ := ih (by rw [hn, hpq.keeps.length]) (h.next hpq)
    refine ⟨r, .cons hq hr, hpq.cons hqr ?_, ?_⟩
    · exact fun key hk => h.toRooted.apart ((keys_simplify u x).subset hk)
    · rwa [append_assoc] at hsettled

/-- Trees that are turned into themselves leave what operands hold and all counts as they are. -/
theorem Simplifies.same (h : Simplifies xs xs p q) (hs : ∀ x ∈ xs, Stored p.table x) (key : OperandKey) :
    q.table.value key = p.table.value key ∧ q.total key = p.total key := by
  constructor
  · by_cases hk : key ∈ xs.flatMap Tree.keys
    · obtain ⟨x, hx, hk⟩ := mem_flatMap.1 hk
      obtain ⟨⟨_, y⟩, hy, rfl⟩ := mem_map.1 hk
      rw [(hs x hx _ y hy).2, (h.stored x hx _ y hy).2]
    · exact h.keeps.value key hk
  · rcases Int.lt_or_le 0 (p.total key) with hp | hp
    · have hc := h.releases.counted key hp
      omega
    · exact h.releases.uncounted key hp

end Pass

namespace Line

variable {u : OperandKey → Bool} {ls : List Line}

theorem map_simplify_of_normal (h : ∀ x ∈ trees ls, x.Normal u) : ls.map (mapTree (Tree.simplify u)) = ls := by
  refine (map_congr_left fun l hl => ?_).trans (map_id' ls)
  obtain ⟨s, tree⟩ := l
  cases tree with
  | none => rfl
  | some x =>
    have hx := Tree.simplify_of_normal (h x (mem_filterMap.2 ⟨_, hl, rfl⟩))
    rw [mapTree, Option.map_some, hx]

theorem normal_place {y : Tree} (h : y ∈ trees (place u ls)) : y.Normal u := by
  obtain ⟨x, _, rfl⟩ := mem_map.1 (mem_trees_place h)
  exact Tree.normal_simplify u x

theorem place_place (u : OperandKey → Bool) (ls : List Line) : place u (place u ls) = place u ls := by
  rw [place, map_simplify_of_normal fun _ => normal_place, filter_eq_self]
  exact fun l hl => (mem_filter.1 hl).2

end Line

namespace Body

open Firmware.Tree

variable {u : OperandKey → Bool} {t : Operands} {body : Body} {ls : List Line}

/-- The body stands for lines whose trees are in the table: every operand is entered at one place,
after the operands that it mentions were made, and referred to behind its definition only. -/
structure StandsFor (t : Operands) (body : Body) (ls : List Line) : Prop
    extends Rooted t.length (Line.trees ls) t where
  eq : body = ls.map Line.toStmt
  fits : ∀ l ∈ ls, l.Fits
  ordered : Token.Dominated [] (Line.tokens ls)

theorem StandsFor.exprs (h : body.StandsFor t ls) : body.exprs = (Line.trees ls).map head := by
  rw [h.eq, exprs_map_toStmt h.fits]

end Body

namespace Resolved

open Firmware.Tree

variable {u : OperandKey → Bool} {r : Resolved} {ls : List Line}

/-- What a run leaves of a body that stands for lines. -/
theorem peephole_eq (h : r.body.StandsFor r.operands ls) (ha : ∀ x ∈ Line.trees ls, Agrees u x) :
    ∃ q : Pass, r.peephole = ((Line.place u ls).map Line.toStmt,
        { r with body := (ls.map (Line.mapTree (Tree.simplify u))).map Line.toStmt, operands := q.table }) ∧
      Pass.Simplifies (Line.trees ls) ((Line.trees ls).map (Tree.simplify u)) { scope := r.scope 0 } q ∧
      Settled u q.table ((Line.trees ls).map (Tree.simplify u)) := by
  have hready : Pass.Ready u r.operands.length [] (Line.trees ls) { scope := r.scope 0 } :=
    { h.toRooted with
      settled := Settled.nil _ _
      fresh := fun _ _ => not_mem_nil
      dominated := h.ordered
      agrees := ha }
  obtain ⟨q, hruns, hpq, hsettled⟩ := Pass.runs_simplify (p := { scope := r.scope 0 }) rfl hready
  rw [← h.exprs] at hruns
  refine ⟨q, ?_, hpq, hsettled⟩
  have hfits : ∀ l ∈ ls.map (Line.mapTree (Tree.simplify u)), l.Fits := by
    intro l hl
    obtain ⟨l₀, hl₀, rfl⟩ := mem_map.1 hl
    exact (h.fits l₀ hl₀).mapTree _
  have hlines := Line.map_toStmt_lines h.fits (Tree.simplify u)
  rw [← h.eq] at hlines
  rw [peephole, Pass.run_mapExprM hruns, hlines]
  simp only [Line.dropPure_map_toStmt hfits]
  rfl

/-- The procedure with the statements that a run leaves. -/
def simplified (r : Resolved) : Resolved := { r.peephole.2 with body := r.peephole.1 }

/-- What a run leaves stands for the lines that are placed. -/
theorem standsFor_simplified (h : r.body.StandsFor r.operands ls) {q : Pass}
    (hs : Settled u q.table ((Line.trees ls).map (Tree.simplify u))) :
    Body.StandsFor q.table ((Line.place u ls).map Line.toStmt) (Line.place u ls) where
  stored := fun y hy => hs.stored y (Line.mem_trees_place hy)
  below := fun y hy => hs.below y (Line.mem_trees_place hy)
  bound := Nat.le_refl _
  nodup := h.nodup.sublist (Line.keys_place u ls)
  eq := rfl
  fits := Line.fits_place h.fits
  ordered := (Line.thins_place u ls).dominated h.ordered

/-- One run over a body reaches the normal form: no node that a walk meets is left to simplify, no
statement is left to drop, and a second run leaves statements, operands and counts as they are. -/
theorem simplified_normal (r : Resolved) (ls : List Line) (h : r.body.StandsFor r.operands ls) :
    (∀ e ∈ r.simplified.body.walk r.simplified.operands, e.IsNormal r.simplified.operands) ∧
    (∀ s ∈ r.simplified.body, s.isPure = false) ∧
    r.simplified.simplified.body = r.simplified.body ∧
    ∀ key, r.simplified.simplified.operands.value key = r.simplified.operands.value key ∧
      (r.simplified.simplified.operands.entry key).totalUses = (r.simplified.operands.entry key).totalUses := by
  have ha := agrees_uncountable h.toRooted h.ordered
  obtain ⟨q, hq, hpq, hs⟩ := peephole_eq h ha
  have hplace := standsFor_simplified h hs
  -- the trees that are left are normal and still agree, so the second run is like the first one
  have ha' : ∀ y ∈ Line.trees (Line.place r.operands.uncountable ls), Agrees r.operands.uncountable y := by
    intro y hy
    obtain ⟨x, hx, rfl⟩ := mem_map.1 (Line.mem_trees_place hy)
    exact (tidy_simplify (ha x hx)).2.agrees
  have hbody : r.simplified.body = (Line.place r.operands.uncountable ls).map Line.toStmt := by
    rw [simplified, hq]
  have hops : r.simplified.operands = q.table := by
    rw [simplified, hq]
  have hsame : ∀ l ∈ Line.place r.operands.uncountable ls, l.isPure = false := by
    intro l hl
    have hkeep := (mem_filter.1 hl).2
    rwa [Bool.not_eq_true'] at hkeep
  refine ⟨?_, ?_, ?_⟩
  · rw [hops, hbody, Body.walk_eq_trees hplace.exprs hplace.stored hplace.below]
    intro e he
    obtain ⟨y, hy, he⟩ := mem_flatMap.1 he
    have hmem := Line.mem_trees_place hy
    exact (Line.normal_place hy).walk hs (hplace.stored y hy) (hplace.below y hy)
      (fun key hk => hs.mem_of_mentions hmem hk) e he
  · rw [hbody, forall_mem_map]
    intro l hl
    rw [Line.isPure_toStmt (hplace.fits l hl), hsame l hl]
  · rw [← hbody, ← hops] at hplace
    obtain ⟨q', hq', hpq', _⟩ := peephole_eq hplace ha'
    have hid : (Line.trees (Line.place r.operands.uncountable ls)).map (Tree.simplify r.operands.uncountable) =
        Line.trees (Line.place r.operands.uncountable ls) :=
      (map_congr_left fun x hx => simplify_of_normal (Line.normal_place hx)).trans (map_id' _)
    rw [hid] at hpq'
    have hops' : r.simplified.simplified.operands = q'.table := by
      rw [simplified, hq']
    refine ⟨?_, fun key => ?_⟩
    · rw [simplified, hq', Line.place_place, hbody]
    · rw [hops']
      exact hpq'.same hplace.stored key

/-- A shared call that is passed on, and an increment of it that is dropped again. -/
theorem simplified_normal_dropped :
    let r : Resolved := ⟨{ name := "main", seqNo := 1 }, [.expr (.many (.procedureCall (.direct "a")) [.definition 0 false]),
      .expr (.unary .decr (.unary .incr (.reference 0 false)))], [{ value := .call "f" [], totalUses := 2 }]⟩
    (∀ s ∈ r.simplified.body, s.isPure = false) ∧ r.simplified.simplified.body = r.simplified.body := by
  intro r
  have h := simplified_normal r
    [⟨.expr (.leaf .nop), some (.many (.procedureCall (.direct "a")) [.definition 0 false (.many (.procedureCall (.direct "f")) [])])⟩,
      ⟨.expr (.leaf .nop), some (.unary .decr (.unary .incr (.reference 0 false)))⟩] ?_
  · exact ⟨h.2.1, h.2.2.1⟩
  · refine ⟨⟨?_, ?_, ?_, ?_⟩, ?_, ?_, ?_⟩
    · simp [Line.trees, Stored, r, Operands.value, Expr.call]
    · simp [Line.trees, r]
    · simp [r]
    · simp [Line.trees]
    · simp [r, Line.toStmt, Stmt.withExpr]
    · simp [Line.Fits, Stmt.expr?]
    · simp [Line.tokens, Line.trees, UnaryOp.effect?]

end Resolved
end Firmware
