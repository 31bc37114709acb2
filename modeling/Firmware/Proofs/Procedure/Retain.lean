import Firmware.Proofs.Procedure.Count

/-!
# Retaining

The pass that adds increments goes by two counts of each operand: the uses that it has been through
and the recorded total. A use at which the two meet is taken for the last and left alone, every other
gets an increment (`Tree.retain`). The pass never touches the totals, so within one run they are
those that it began with (`run_retain`).
-/

open List hiding head

namespace Firmware

open Token
namespace Tree

variable {key : OperandKey} {x : Tree} {T : OperandKey → Int}

/-! ## The tree with increments -/

/-- A use of an operand, with an increment unless the counts take it for the last one: `w` are the
tokens before it and `T` the recorded totals. -/
def retainUse (T : OperandKey → Int) (w : List Token) (key : OperandKey) (noIncr : Bool)
    (use : Tree) : Tree :=
  if noIncr || (uses w key : Int) + 1 == T key then use else .unary .incr use

mutual

/-- The tree with increments, where `w` are the tokens before it and `T` the recorded totals. The
definition of an operand whose total is one gives way. -/
@[simp] def retain (T : OperandKey → Int) (w : List Token) : Tree → Tree
  | .leaf l => .leaf l
  | .unary op x => .unary op (retain T w x)
  | .store target value => .store (retain T w target) (retain T (w ++ target.tokens) value)
  | .many op args => .many op (retainAll T w args)
  | .reference key noIncr => retainUse T w key noIncr (.reference key noIncr)
  | .definition key noIncr x =>
    if T key == 1 then inlineAt key (retain T w x)
    else retainUse T w key noIncr (.definition key noIncr (retain T w x))
  | .inlined key x => .inlined key (retain T w x)

/-- Several trees in a row with increments. -/
@[simp] def retainAll (T : OperandKey → Int) (w : List Token) : List Tree → List Tree
  | [] => []
  | x :: rest => retain T w x :: retainAll T (w ++ x.tokens) rest

end

theorem Reduces.retainUse {gone u : OperandKey → Bool} {use : Tree} (h : Reduces (Lacks gone) u x use)
    (w : List Token) (key : OperandKey) (noIncr : Bool) :
    Reduces (Lacks gone) u x (Tree.retainUse T w key noIncr use) := by
  rw [Tree.retainUse]
  split
  · exact h
  · refine ⟨?_, by rw [keys_unary]; exact h.keys, fun hb => by rw [Below]; exact h.below hb, fun ha => ?_⟩
    · rw [tokens_unary]; exact h.tokens
    · obtain ⟨hv, hy⟩ := h.agrees ha
      exact ⟨by rw [head_unary]; exact hv, agrees_unary.2 hy⟩

theorem length_retainAll (T : OperandKey → Int) (w : List Token) (xs : List Tree) :
    (retainAll T w xs).length = xs.length := by
  induction xs generalizing w with
  | nil => rw [retainAll]
  | cons x rest ih => rw [retainAll, length_cons, length_cons, ih]

theorem Alike.retain {xs : List Tree} (h : Over xs x) (T : OperandKey → Int) (w : List Token) :
    Alike xs (retainAll T w xs) x (x.retain T w) := by
  cases h with
  | leaf l => rw [Tree.retain, retainAll]; exact .leaf l
  | unary op x => simp only [Tree.retain, retainAll]; exact .unary op _ _
  | store x y => simp only [Tree.retain, retainAll]; exact .store _ _ _ _
  | many op xs => rw [Tree.retain]; exact .many op _ _ (length_retainAll T w xs)

/-- Retaining takes the definitions out that give way. -/
theorem reduces_retain (T : OperandKey → Int) (u : OperandKey → Bool) (w : List Token) (x : Tree) :
    Reduces (Lacks fun key => T key == 1) u x (x.retain T w) := by
  induction x using inductOver generalizing w with
  | above xs x hx ih =>
    refine .alike (rowRelation_lacks _) ?_ (hx.retain T w)
    clear hx
    induction xs generalizing w with
    | nil => rw [retainAll]; exact .nil
    | cons x rest ihr =>
      rw [retainAll]
      exact .cons (ih x mem_cons_self w) (ihr (fun y hy => ih y (mem_cons_of_mem _ hy)) _)
  | reference key noIncr =>
    rw [retain]
    exact (Reduces.refl (by rw [tokens_reference]; rfl)).retainUse w key noIncr
  | enters key x y hy ih =>
    cases hy with
    | definition noIncr =>
      rw [retain]
      split
      · exact (ih w).inlineAt ‹_› noIncr
      · exact ((ih w).definition ‹_› noIncr).retainUse w key noIncr
    | inlined => rw [retain]; exact (ih w).inlined key

theorem tokens_retain (T : OperandKey → Int) (w : List Token) (x : Tree) :
    (retain T w x).tokens = without (fun key => T key == 1) x.tokens :=
  (reduces_retain T (fun _ => false) w x).tokens

theorem keys_retain (T : OperandKey → Int) (w : List Token) (x : Tree) :
    (retain T w x).keys.Sublist x.keys := (reduces_retain T (fun _ => false) w x).keys

/-- An operand is not used inside of itself. -/
theorem Below.uses_eq_zero (h : x.Below key) : uses x.tokens key = 0 := by
  have hrefer : references x.tokens key = 0 := by
    rw [references, count_eq_zero]
    exact fun hk => absurd (h.lt_of_refer hk) (Nat.lt_irrefl key)
  have hdefine : x.tokens.count (.define key) = 0 := by
    rw [count_eq_zero, ← mem_defined]
    exact fun hk => absurd (h.lt_of_mem_keys ((defined_sublist_keys x).subset hk))
      (Nat.lt_irrefl key)
  rw [uses, hrefer, hdefine]

end Tree

/-! ## The run -/

namespace Pass

open Firmware.Tree
variable {T : OperandKey → Int} {w : List Token} {p q : Pass} {x x' : Tree} {n : Nat}
  {key : OperandKey} {rest xs ys : List Tree}

/-- The counts while increments are added: the totals are `T`, and the uses in the tokens `w` are
those that increments have been decided for. -/
structure Retaining (T : OperandKey → Int) (w : List Token) (p : Pass) : Prop where
  total : ∀ key, p.total key = T key
  placed : ∀ key, T key ≠ 1 → p.placed key = uses w key

/-- What adding increments relies on, before it goes through the trees `xs`: used operands have a
total, and only definitions may have the total one. -/
structure Retainable (T : OperandKey → Int) (n : Nat) (w : List Token) (xs : List Tree)
    (p : Pass) : Prop extends Rooted n xs p.table where
  retaining : Retaining T w p
  counted : ∀ key, uses (xs.flatMap tokens) key ≠ 0 → 0 < T key
  shared : ∀ key, .refer key ∈ xs.flatMap tokens → T key ≠ 1

/-- From `p` to `q` increments are added to the trees `xs`, which gives `ys`. -/
structure Retains (T : OperandKey → Int) (w : List Token) (xs ys : List Tree) (p q : Pass) :
    Prop extends Turns xs ys p q where
  retaining : Retaining T (w ++ xs.flatMap tokens) q

theorem Retaining.congr {w' : List Token} (h : Retaining T w p)
    (hc : ∀ key, q.total key = p.total key ∧ q.placed key = p.placed key)
    (hw : ∀ key, T key ≠ 1 → uses w' key = uses w key) : Retaining T w' q := by
  refine ⟨?_, ?_⟩
  · intro key; rw [(hc key).1, h.total]
  · intro key hT; rw [(hc key).2, h.placed key hT, hw key hT]

/-- One more use is decided. -/
theorem Retaining.use {w' : List Token} (h : Retaining T w p) (hlt : key < p.table.length)
    (hself : uses w' key = uses w key + 1)
    (hne : ∀ j, j ≠ key → uses w' j = uses w j) :
    Retaining T w' (p.updated key fun o => { o with placedUses := o.placedUses + 1 }) := by
  refine ⟨?_, ?_⟩
  · intro j
    rw [← h.total j]
    refine entry_updated_field Operand.totalUses ?_ p key j
    exact fun _ => rfl
  · intro j hT
    by_cases hj : j = key
    · subst hj
      have hp := h.placed j hT
      rw [Pass.placed, Pass.entry] at hp
      rw [Pass.placed, entry_updated_self hlt, hself]
      simp only [Operand.unnumbered] at hp ⊢
      omega
    · rw [Pass.placed, entry_updated_ne hj, ← Pass.placed, h.placed j hT, hne j hj]

theorem keeps_updated_placed (p : Pass) (key : OperandKey) :
    Keeps [] p (p.updated key fun o => { o with placedUses := o.placedUses + 1 }) :=
  keeps_updated_counts p key fun _ => rfl

theorem Retainable.part {m : Nat} (h : Retainable T n w xs p) (hroot : Rooted m ys p.table)
    (huses : ∀ key, uses (ys.flatMap tokens) key ≤ uses (xs.flatMap tokens) key)
    (hrefer : ∀ key, .refer key ∈ ys.flatMap tokens → .refer key ∈ xs.flatMap tokens) :
    Retainable T m w ys p :=
  { hroot with
    retaining := h.retaining
    counted := fun key hk => h.counted key (by have := huses key; omega)
    shared := fun key hk => h.shared key (hrefer key hk) }

theorem Retainable.over (h : Retainable T n w [x] p) (hx : Over xs x) : Retainable T n w xs p := by
  refine h.part (h.toRooted.over hx) (fun key => ?_) fun key hk => ?_
  · exact Nat.le_of_eq (by rw [flatMap_singleton, hx.uses_eq])
  · rw [flatMap_singleton]; exact hx.refer_mem_iff.2 hk

theorem Retains.alike {y : Tree} (h : Retains T w xs ys p q) (ha : Alike xs ys x y) : Retains T w [x] [y] p q := by
  refine ⟨h.toTurns.alike ha, h.retaining.congr (fun _ => ⟨rfl, rfl⟩) fun key _ => ?_⟩
  rw [flatMap_singleton, uses_append, uses_append, ha.left.uses_eq]

theorem Retainable.first (h : Retainable T n w (x :: rest) p) : Retainable T n w [x] p := by
  refine h.part h.toRooted.first ?_ ?_
  · intro key
    rw [flatMap_singleton, flatMap_cons, uses_append]
    exact Nat.le_add_right _ _
  · intro key hk
    rw [flatMap_singleton] at hk
    rw [flatMap_cons]
    exact mem_append_left _ hk

theorem Retainable.next (h : Retainable T n w (x :: rest) p) (hpq : Retains T w [x] [x'] p q) :
    Retainable T n (w ++ x.tokens) rest q := by
  have hkeeps := hpq.keeps
  have hret := hpq.retaining
  have hcounted := h.counted
  have hshared := h.shared
  rw [flatMap_singleton] at hkeeps hret
  rw [flatMap_cons] at hcounted hshared
  refine { h.toRooted.rest hkeeps with
    retaining := hret
    counted := fun key hk => hcounted key (by rw [uses_append]; omega)
    shared := fun key hk => hshared key (mem_append_right _ hk) }

theorem Retains.cons {rest' : List Tree} {r : Pass} (h : Retains T w [x] [x'] p q)
    (h' : Retains T (w ++ x.tokens) rest rest' q r)
    (hapart : ∀ key ∈ x'.keys, key ∉ rest.flatMap Tree.keys) :
    Retains T w (x :: rest) (x' :: rest') p r := by
  refine ⟨h.toTurns.cons h'.toTurns hapart, ?_⟩
  rw [flatMap_cons, ← append_assoc]
  exact h'.retaining

theorem run_retainSteps {visit : Expr → PassM Expr}
    (hrun : ∀ x ∈ xs, ∀ w p, Retainable T n w [x] p → ∃ q, (retainStep visit x.head).run p = ((x.retain T w).head, q) ∧
        Retains T w [x] [x.retain T w] p q) (h : Retainable T n w xs p) :
    ∃ q, (retainSteps visit (xs.map head)).run p = ((retainAll T w xs).map head, q) ∧
      Retains T w xs (retainAll T w xs) p q := by
  induction xs generalizing w p with
  | nil =>
    refine ⟨p, rfl, Turns.refl h.stored, ?_⟩
    rw [flatMap_nil, append_nil]
    exact h.retaining
  | cons x rest ih =>
    obtain ⟨q, hq, hpq⟩ := hrun x mem_cons_self w p h.first
    obtain ⟨r, hr, hqr⟩ := ih (fun y hy => hrun y (mem_cons_of_mem _ hy)) (h.next hpq)
    refine ⟨r, ?_, ?_⟩
    · rw [map_cons, retainSteps, run_bind_of hq, run_bind_of hr]
      rfl
    · refine hpq.cons hqr ?_
      exact fun key hk => h.toRooted.apart ((keys_retain T w x).subset hk)

/-- A use of an operand with several uses is counted, and gets its increment or not. -/
theorem run_retainUse {v : List Token} (h : Retaining T v p) (noIncr isDefinition : Bool)
    (hpos : 0 < T key) (hshared : T key ≠ 1) (hv : uses v key = uses w key) {use : Tree}
    (huse : use.head = if isDefinition then .definition key noIncr else .reference key noIncr) :
    (Pass.retainUse key noIncr isDefinition).run p = ((Tree.retainUse T w key noIncr use).head,
        p.updated key fun o => { o with placedUses := o.placedUses + 1 }) := by
  have htotal : (p.table.entry key).totalUses = T key := h.total key
  have hplaced : (p.table.entry key).placedUses = uses w key := by
    rw [← hv]
    exact h.placed key hshared
  rw [Pass.retainUse, run_bind_of (run_operand key p), htotal, hplaced, if_neg (Int.not_le.2 hpos),
    if_neg fun hb => hshared (beq_iff_eq.1 hb), run_bind_of (run_update key _ p), Tree.retainUse,
    ← huse]
  split
  · rfl
  · rw [head_unary]; rfl

/-- An operand takes up what adding increments left. -/
theorem Retains.inside (h : Retains T w [x] [x'] p q) (hself : key ∉ x'.keys)
    (hlt : key < q.table.length) :
    Turns [.inlined key x] [.inlined key x'] p (q.updated key fun o => { o with value := x'.head }) ∧
      Retaining T (w ++ x.tokens) (q.updated key fun o => { o with value := x'.head }) := by
  have hret := h.retaining
  rw [flatMap_singleton] at hret
  refine ⟨h.toTurns.inside hlt hself .inlined .inlined, hret.congr (fun j => ?_) fun _ _ => rfl⟩
  exact ⟨(entry_updated_value q key j _).1, (entry_updated_value q key j _).2.2⟩

theorem stored_retainUse {noIncr : Bool} {use : Tree} {t : Operands} (h : Stored t use) :
    Stored t (Tree.retainUse T w key noIncr use) := by
  rw [Tree.retainUse]
  split
  · exact h
  · exact stored_unary.2 h

theorem traverses_retain (visit : Expr → PassM Expr) : Traverses (retainStep visit) (retainSteps visit) :=
  ⟨fun _ => rfl, fun _ _ => rfl, fun _ _ => rfl, fun _ _ => rfl, rfl, fun _ _ => rfl⟩

/-- The step of the pass on the expression of a tree leaves that of the tree with increments. -/
theorem run_retainStep {depth : Nat} (hd : n ≤ depth) (h : Retainable T n w [x] p) :
    ∃ q, (retainStep (visitor retainStep depth) x.head).run p = ((x.retain T w).head, q) ∧
      Retains T w [x] [x.retain T w] p q := by
  induction x using inductOver generalizing n depth w p with
  | above xs x hx ih =>
    obtain ⟨q, hq, hpq⟩ := run_retainSteps (fun x hx w p => ih x hx hd) (h.over hx)
    exact ⟨q, (traverses_retain _).run_alike (hx.retain T w).heads hq, hpq.alike (hx.retain T w)⟩
  | reference key noIncr =>
    have hb := h.below _ mem_cons_self
    rw [Below] at hb
    have hlt : key < p.table.length := Nat.lt_of_lt_of_le hb h.bound
    have hshared : T key ≠ 1 := by
      refine h.shared key ?_
      rw [flatMap_singleton, tokens_reference]
      exact mem_cons_self
    have hpos : 0 < T key := by
      refine h.counted key ?_
      rw [flatMap_singleton, tokens_reference, uses_refer_self]
      exact Nat.succ_ne_zero _
    refine ⟨p.updated key fun o => { o with placedUses := o.placedUses + 1 }, ?_, turns_singleton.2 ⟨?_, ?_⟩, ?_⟩
    · rw [head, retainStep, Tree.retain]
      exact run_retainUse h.retaining noIncr false hpos hshared rfl (by rw [head]; rfl)
    · rw [keys_reference]
      exact keeps_updated_placed p key
    · rw [Tree.retain]
      exact stored_retainUse (stored_of_keys_eq_nil (keys_reference key noIncr))
    · rw [flatMap_singleton, tokens_reference]
      refine h.retaining.use hlt ?_ ?_
      · rw [uses_append, uses_refer_self, uses_nil]
      · intro j hj
        rw [uses_append, uses_refer_ne hj, uses_nil, Nat.add_zero]
  | enters key x y hy ih =>
    obtain ⟨hroot, hk, hv, hself⟩ := h.toRooted.enters hy
    obtain ⟨d, rfl⟩ := Nat.exists_eq_add_of_lt (Nat.lt_of_lt_of_le hk hd)
    have hself' : key ∉ (x.retain T w).keys := fun hj => hself ((keys_retain T w x).subset hj)
    have hzero := (hroot.below x mem_cons_self).uses_eq_zero
    have hne : ∀ j, j ≠ key → uses y.tokens j = uses x.tokens j := by
      intro j hj
      cases hy with
      | definition noIncr => rw [tokens_definition, uses_define_ne hj]
      | inlined => rw [tokens_inlined]
    have hrow : Retainable T key w [x] p := by
      refine h.part hroot (fun j => ?_) fun j hj => ?_
      · rw [flatMap_singleton, flatMap_singleton]
        by_cases hj : j = key
        · rw [hj, hzero]; exact Nat.zero_le _
        · exact Nat.le_of_eq (by rw [hne j hj])
      · rw [flatMap_singleton] at hj
        rwa [flatMap_singleton, ← references_pos_iff, hy.references_eq, references_pos_iff]
    obtain ⟨q, hq, hpq⟩ := ih (Nat.le_add_right key d) hrow
    obtain ⟨hturns, hret⟩ := hpq.inside hself' (by rw [hpq.keeps.length]; exact Nat.lt_of_lt_of_le hk h.bound)
    have hvisit : (visitor retainStep (key + d + 1) (p.table.value key)).run p = ((x.retain T w).head, q) := by
      rw [hv, visitor_succ]
      exact hq
    cases hy with
    | inlined =>
      refine ⟨q.updated key fun o => { o with value := (x.retain T w).head }, ?_, ?_, ?_⟩
      · rw [head_inlined, retainStep, run_bind_of (run_inside hvisit), Tree.retain, head_inlined]
        rfl
      · rw [Tree.retain]
        exact hturns
      · rw [flatMap_singleton, tokens_inlined]
        exact hret
    | definition noIncr =>
      have hpos : 0 < T key := by
        refine h.counted key ?_
        rw [flatMap_singleton, tokens_definition, uses_define_self]
        exact Nat.succ_ne_zero _
      obtain ⟨hkeeps, hstored⟩ := turns_singleton.1 hturns
      obtain ⟨hlt, hvalue, hx⟩ := Enters.inlined.stored_iff.1 hstored
      rw [keys_inlined] at hkeeps
      rw [head, retainStep, run_bind_of (run_inside hvisit), Tree.retain]
      by_cases hT : T key = 1
      · rw [if_pos (beq_iff_eq.2 hT)]
        obtain ⟨r, hr, hqr, hstored', hcounts⟩ := run_inlineUse hlt hself' hx
        refine ⟨r, ?_, turns_singleton.2 ⟨?_, hstored'⟩, ?_⟩
        · have htotal := (hret.total key).trans hT
          rw [Operands.value_eq_entry hlt] at hvalue
          rw [Pass.total, Pass.entry] at htotal
          rw [Pass.retainUse, run_bind_of (run_operand key _), hvalue, ← hr,
            if_neg (by rw [show (Operands.entry _ key).totalUses = 1 from htotal]; decide),
            if_pos (by rw [show (Operands.entry _ key).totalUses = 1 from htotal]; decide), if_pos rfl]
        · rw [keys_definition]
          refine (hkeeps.trans hqr).mono fun j hj => ?_
          rcases mem_append.1 hj with hj | hj
          · exact hj
          · rw [mem_singleton.1 hj]; exact mem_cons_self
        · rw [flatMap_singleton]
          refine hret.congr (fun j => ⟨(hcounts j).1, (hcounts j).2.2⟩) fun j hj => ?_
          rw [uses_append, uses_append, hne j fun heq => hj (heq ▸ hT)]
      · rw [if_neg fun hb => hT (beq_iff_eq.1 hb)]
        refine ⟨_, run_retainUse hret noIncr true hpos hT ?_ (by rw [head]; rfl), turns_singleton.2 ⟨?_, ?_⟩, ?_⟩
        · rw [uses_append, hzero, Nat.add_zero]
        · rw [keys_definition]
          refine (hkeeps.trans (keeps_updated_placed _ key)).mono fun j hj => ?_
          rwa [append_nil] at hj
        · refine stored_retainUse ?_
          refine (keeps_updated_placed _ key).stored ?_ fun _ _ hk => absurd hk not_mem_nil
          exact (Enters.definition noIncr).stored_iff.2 ⟨hlt, hvalue, hx⟩
        · rw [flatMap_singleton]
          refine hret.use hlt ?_ ?_
          · rw [uses_append, uses_append, tokens_definition, uses_define_self]
            omega
          · intro j hj
            rw [uses_append, uses_append, hne j hj]

/-- Adding increments in the expression of a tree leaves that of the tree with increments. -/
theorem run_retain (h : Retainable T p.table.length w [x] p) :
    ∃ q, (Pass.retain x.head).run p = ((x.retain T w).head, q) ∧ Retains T w [x] [x.retain T w] p q := by
  rw [Pass.retain, run_run]
  exact run_retainStep (Nat.le_refl _) h

end Pass
end Firmware
