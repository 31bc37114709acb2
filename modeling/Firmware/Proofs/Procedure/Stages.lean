import Firmware.Proofs.Procedure.Lines

/-!
# The stages of resolving

Resolving takes a body through three stages, and this is what each does to the row of trees of its
statements. Definitions are placed and the trees simplified; uses are counted and lone definitions
give way; increments are added and the trees simplified again, one statement at a time, while
references that are dropped on the way are taken off the totals.
-/

open List

namespace Firmware

open Token
namespace Pass

open Firmware.Tree
variable {seen : List OperandKey} {p : Pass}

/-! ## Placing definitions -/

/-- Introducing in one expression and simplifying what it unfolds to. -/
theorem run_place {t : Operands} (ht : t.IsSource) {e : Expr} (he : e.isSource t.length = true)
    {done : List Tree} (h : Introducing t seen p) (hs : Settled t.uncountable p.table done)
    (hseen : ∀ key, key ∈ seen ↔ key ∈ done.flatMap Tree.keys) :
    ∃ q, (introduce e >>= Pass.simplify).run p = (((e.unfold t seen).simplify t.uncountable).head, q) ∧
      Introducing t (seen ++ (e.unfold t seen).keys) q ∧
      Settled t.uncountable q.table (done ++ [(e.unfold t seen).simplify t.uncountable]) ∧
      q.failure = p.failure ∧
      ∀ key, q.total key = p.total key - uses (e.unfold t seen).tokens key := by
  have hunf : Unfolded t.length seen (e.unfold t seen) := unfolded_unfoldTo ht (Nat.le_refl _) he seen
  have hagrees : Agrees t.uncountable (e.unfold t seen) := agrees_unfoldTo ht (Nat.le_refl _) he seen
  obtain ⟨q, hq, hpq, hstored⟩ := run_introduce ht he h
  -- no count is open yet, so simplification finds none to change
  have hneg : ∀ key, q.total key ≤ 0 := by
    intro key
    by_cases hk : key ∈ seen ++ (e.unfold t seen).keys
    · exact Int.le_of_lt (hpq.state.total key hk)
    · exact Int.le_of_eq (hpq.state.fresh key hk)
  have hready : Ready t.uncountable q.table.length done [e.unfold t seen] q := by
    refine { stored := ?_, below := ?_, bound := Nat.le_refl _, nodup := ?_, settled := ?_,
             fresh := ?_, dominated := ?_, agrees := ?_ }
    · rw [forall_mem_singleton]; exact hstored
    · rw [forall_mem_singleton, hpq.state.length]; exact hunf.below
    · rw [flatMap_singleton]; exact hunf.nodup
    · refine hs.frame hpq.keeps.length fun key hk => hpq.keeps.value key fun hk' => ?_
      exact hunf.fresh key hk' ((hseen key).2 hk)
    · rw [flatMap_singleton]
      exact fun key hk hmem => hunf.fresh key hk ((hseen key).2 hmem)
    · rw [flatMap_singleton]
      exact hunf.dominated.mono fun key hk => (hseen key).1 hk
    · rw [forall_mem_singleton]; exact hagrees
  obtain ⟨r, hr, hqr⟩ := run_simplify hready
  have hkeeps := hqr.keeps
  rw [flatMap_singleton] at hkeeps
  have htotal : ∀ key, r.total key = q.total key :=
    fun key => hqr.releases.uncounted key (hneg key)
  refine ⟨r, by rw [run_bind_of hq, hr], ?_, hready.settled_next hqr, by rw [hkeeps.failure, hpq.keeps.failure], ?_⟩
  · refine ⟨by rw [hkeeps.length, hpq.state.length], ?_, ?_, ?_, ?_, ?_⟩
    · intro key hk
      rw [hkeeps.value key fun hk' => hk (mem_append_right _ hk'), hpq.state.value key hk]
    · intro key hk
      rw [htotal, hpq.state.fresh key hk]
    · intro key hk
      rw [htotal]
      exact hpq.state.total key hk
    · intro key
      rw [hqr.releases.current, hpq.state.current]
    · intro key
      rw [hqr.releases.placed, hpq.state.placed]
  · intro key
    rw [htotal, hpq.total]

/-- The keys of a simplified unfolded tree are those of the tree. -/
theorem mem_keys_simplify_unfolded {u : OperandKey → Bool} {n : Nat} {x : Tree}
    (h : Unfolded n seen x) (key : OperandKey) : key ∈ x.keys ↔ key ∈ (x.simplify u).keys := by
  refine ⟨fun hk => ?_, fun hk => (keys_simplify u x).subset hk⟩
  rw [← h.defined, ← defined_simplify u x] at hk
  exact (defined_sublist_keys _).subset hk

/-- Placing definitions leaves the simplified unfolded trees. -/
theorem runs_place {t : Operands} (ht : t.IsSource) {es : List Expr}
    (hes : ∀ e ∈ es, e.isSource t.length = true) {done : List Tree} (h : Introducing t seen p)
    (hs : Settled t.uncountable p.table done) (hseen : ∀ key, key ∈ seen ↔ key ∈ done.flatMap Tree.keys) :
    ∃ q, Runs (fun e => introduce e >>= Pass.simplify) es
        ((Expr.unfoldAll t seen es).map (Tree.simplify t.uncountable)) p q ∧
      Introducing t (seen ++ (Expr.unfoldAll t seen es).flatMap Tree.keys) q ∧
      Settled t.uncountable q.table
        (done ++ (Expr.unfoldAll t seen es).map (Tree.simplify t.uncountable)) ∧
      q.failure = p.failure ∧
      ∀ key, q.total key = p.total key - uses ((Expr.unfoldAll t seen es).flatMap tokens) key := by
  induction es generalizing seen done p with
  | nil =>
    refine ⟨p, .nil p, ?_, ?_, rfl, fun key => (Int.sub_zero _).symm⟩
    · rw [Expr.unfoldAll, flatMap_nil, append_nil]; exact h
    · rw [Expr.unfoldAll, map_nil, append_nil]; exact hs
  | cons e rest ih =>
    obtain ⟨he, hrest⟩ := forall_mem_cons.1 hes
    have hunf : Unfolded t.length seen (e.unfold t seen) := unfolded_unfoldTo ht (Nat.le_refl _) he seen
    obtain ⟨q, hq, hintro, hsettled, hfail, htotal⟩ := run_place ht he h hs hseen
    have hseen' : ∀ key, key ∈ seen ++ (e.unfold t seen).keys ↔
        key ∈ (done ++ [(e.unfold t seen).simplify t.uncountable]).flatMap Tree.keys := by
      intro key
      rw [flatMap_append, flatMap_singleton, mem_append, mem_append, hseen key, mem_keys_simplify_unfolded hunf key]
    obtain ⟨r, hr, hintro', hsettled', hfail', htotal'⟩ := ih hrest hintro hsettled hseen'
    refine ⟨r, .cons hq hr, ?_, ?_, by rw [hfail', hfail], ?_⟩
    · rw [Expr.unfoldAll, flatMap_cons, ← append_assoc]
      exact hintro'
    · rw [Expr.unfoldAll, map_cons, ← singleton_append, ← append_assoc]
      exact hsettled'
    · intro key
      rw [htotal', htotal, Expr.unfoldAll, flatMap_cons, uses_append]
      omega

/-! ## Counting uses -/

/-- Counting leaves the stripped trees. -/
theorem runs_count {N : OperandKey → Int} {gone : OperandKey → Bool}
    (hgone : ∀ key, gone key = true ↔ N key = -1) {n : Nat} {w : List Token} {xs : List Tree}
    (hn : n = p.table.length) (h : Countable N n w xs p) :
    ∃ q, Runs count (xs.map head) (xs.map (strip gone)) p q ∧ Counts N w xs (xs.map (strip gone)) p q := by
  induction xs generalizing w p with
  | nil =>
    refine ⟨p, .nil p, Turns.refl h.stored, ?_⟩
    rw [flatMap_nil, append_nil]
    exact h.counting
  | cons x rest ih =>
    have hfirst := h.first
    rw [hn] at hfirst
    obtain ⟨q, hq, hpq⟩ := run_count hgone hfirst
    obtain ⟨r, hr, hqr⟩ := ih (by rw [hn, hpq.keeps.length]) (h.next hpq)
    refine ⟨r, .cons hq hr, hpq.cons hqr ?_⟩
    exact fun key hk => h.toRooted.apart ((keys_strip gone x).subset hk)

/-! ## Adding increments -/

end Pass

namespace Tree

/-- The totals once the references that `x` has more than `y` are released. -/
def released (T : OperandKey → Int) (x y : Tree) (key : OperandKey) : Int :=
  if 0 < T key then T key + references y.tokens key - references x.tokens key
  else T key

/-- A row of counted trees with increments, simplified, where `w` are the tokens before it and `T`
the totals at its start. The totals that one tree leaves are those that the next begins with. -/
def finish (u : OperandKey → Bool) (T : OperandKey → Int) (w : List Token) :
    List Tree → List Tree
  | [] => []
  | x :: rest =>
    let y := (x.retain T w).simplify u
    y :: finish u (released T x y) (w ++ x.tokens) rest

end Tree

namespace Pass

open Firmware.Tree
variable {u : OperandKey → Bool} {T : OperandKey → Int} {w : List Token} {done rest xs : List Tree}
  {p : Pass} {n : Nat} {x : Tree}

/-- What the last stage relies on before it goes through the trees `xs`: the total of an operand
that is still defined is its definition and all references to it that are left, in the trees that are
finished and in those that are not. -/
structure Finishing (u : OperandKey → Bool) (n : Nat) (T : OperandKey → Int) (w : List Token)
    (done xs : List Tree) (p : Pass) : Prop extends Rooted n xs p.table where
  retaining : Retaining T w p
  settled : Settled u p.table done
  fresh : ∀ key ∈ xs.flatMap Tree.keys, key ∉ done.flatMap Tree.keys
  distinct : (done.flatMap Tree.keys).Nodup
  ordered : Token.Dominated [] (done.flatMap tokens)
  dominated : Token.Dominated (defined (done.flatMap tokens)) (xs.flatMap tokens)
  agrees : ∀ x ∈ xs, Agrees u x
  exact : ∀ key ∈ defined ((done ++ xs).flatMap tokens),
    T key = 1 + (references ((done ++ xs).flatMap tokens) key : Int)

/-- A reference in the trees that are left is to an operand that is defined. -/
theorem Finishing.defined_of_refer (h : Finishing u n T w done xs p) {key : OperandKey}
    (hk : .refer key ∈ xs.flatMap tokens) : key ∈ defined ((done ++ xs).flatMap tokens) := by
  rw [flatMap_append, defined_append, mem_append]
  exact h.dominated.mem hk

/-- An operand with the total one is referred to nowhere in the trees that are left. -/
theorem Finishing.references_eq_zero (h : Finishing u n T w done xs p) {key : OperandKey}
    (hT : T key = 1) : references (xs.flatMap tokens) key = 0 := by
  rcases Nat.eq_zero_or_pos (references (xs.flatMap tokens) key) with hz | hpos
  · exact hz
  · have hk := references_pos_iff.1 hpos
    have he := h.exact key (h.defined_of_refer hk)
    rw [flatMap_append, references_append] at he
    omega

section

variable (h : Finishing u n T w done (x :: rest) p)
include h

theorem Finishing.first : Retainable T n w [x] p := by
  have hmem : ∀ key, uses x.tokens key ≠ 0 → key ∈ defined ((done ++ x :: rest).flatMap tokens) := by
    intro key hk
    by_cases hr : .refer key ∈ x.tokens
    · refine h.defined_of_refer ?_
      rw [flatMap_cons]
      exact mem_append_left _ hr
    · have hz : references x.tokens key = 0 := by
        rw [references, count_eq_zero]; exact hr
      rw [uses, hz, Nat.add_zero] at hk
      have hd := mem_defined.2 (count_pos_iff.1 (Nat.pos_of_ne_zero hk))
      rw [flatMap_append, flatMap_cons, defined_append, defined_append]
      exact mem_append_right _ (mem_append_left _ hd)
  refine { h.toRooted.first with
    retaining := h.retaining
    counted := ?_
    shared := ?_ }
  · rw [flatMap_singleton]
    intro key hk
    have he := h.exact key (hmem key hk)
    omega
  · rw [flatMap_singleton]
    intro key hk hT
    have hz := h.references_eq_zero hT
    rw [flatMap_cons, references_append] at hz
    have hpos := references_pos_iff.2 hk
    omega

/-- With its increments, the first tree still refers to operands defined before only. -/
theorem Finishing.dominated_first : Token.Dominated (defined (done.flatMap tokens)) (x.retain T w).tokens := by
  have hdom := h.dominated
  rw [flatMap_cons, dominated_append] at hdom
  rw [tokens_retain]
  refine hdom.1.without ?_
  intro key hT hk
  have hz := h.references_eq_zero (beq_iff_eq.1 hT)
  rw [flatMap_cons, references_append] at hz
  have hpos := references_pos_iff.2 hk
  omega

/-- A count that is open covers more than the references in the first tree. -/
theorem Finishing.references_lt {key : OperandKey} (hpos : 0 < T key) : (references x.tokens key : Int) < T key := by
  by_cases hk : .refer key ∈ x.tokens
  · have he := h.exact key (h.defined_of_refer (by rw [flatMap_cons]; exact mem_append_left _ hk))
    rw [flatMap_append, flatMap_cons, references_append, references_append] at he
    omega
  · have hz : references x.tokens key = 0 := by
      rw [references, count_eq_zero]; exact hk
    rw [hz]
    exact hpos

end

/-- Once the first tree has its increments it can be simplified. -/
theorem Finishing.ready {q : Pass} (h : Finishing u n T w done (x :: rest) p)
    (hpq : Retains T w [x] [x.retain T w] p q) : Ready u n done [x.retain T w] q := by
  have hkeeps := hpq.keeps
  rw [flatMap_singleton] at hkeeps
  have hsub := (keys_retain T w x).subset
  have hfresh : ∀ key ∈ x.keys, key ∉ done.flatMap Tree.keys := by
    intro key hk
    refine h.fresh key ?_
    rw [flatMap_cons]
    exact mem_append_left _ hk
  have hnodup := h.toRooted.first.nodup
  rw [flatMap_singleton] at hnodup
  refine { stored := hpq.stored, below := ?_, bound := ?_, nodup := ?_, settled := ?_,
           fresh := ?_, dominated := ?_, agrees := ?_ }
  · rw [forall_mem_singleton]
    exact (reduces_retain T u w x).below (h.below x mem_cons_self)
  · rw [hkeeps.length]; exact h.bound
  · rw [flatMap_singleton]
    exact hnodup.sublist (keys_retain T w x)
  · refine h.settled.frame hkeeps.length fun key hk => hkeeps.value key fun hk' => ?_
    exact hfresh key hk' hk
  · rw [flatMap_singleton]
    exact fun key hk => hfresh key (hsub hk)
  · rw [flatMap_singleton]
    exact h.dominated_first.mono fun key hk => (defined_sublist_flatMap_keys done).subset hk
  · rw [forall_mem_singleton]
    exact ((reduces_retain T u w x).agrees (h.agrees x mem_cons_self)).2

/-- One tree gets its increments and is simplified. -/
theorem run_finish (h : Finishing u p.table.length T w done (x :: rest) p) :
    ∃ q, (Pass.retain x.head >>= Pass.simplify).run p = (((x.retain T w).simplify u).head, q) ∧ q.failure = p.failure ∧
      q.table.length = p.table.length ∧
      Finishing u p.table.length (released T x ((x.retain T w).simplify u)) (w ++ x.tokens)
        (done ++ [(x.retain T w).simplify u]) rest q := by
  obtain ⟨q, hq, hpq⟩ := run_retain h.first
  have hready := h.ready hpq
  obtain ⟨r, hr, hqr⟩ := run_simplify (by rw [hpq.keeps.length]; exact hready)
  have hkeeps := hpq.keeps
  have hkeeps' := hqr.keeps
  have hrel := hqr.releases
  rw [flatMap_singleton] at hkeeps hkeeps'
  rw [flatMap_singleton, flatMap_singleton, tokens_retain] at hrel
  have hsub : ∀ key ∈ ((x.retain T w).simplify u).keys, key ∈ x.keys :=
    fun key hk => (keys_retain T w x).subset ((keys_simplify u _).subset hk)
  have hall : Keeps x.keys p r := by
    refine (hkeeps.trans hkeeps').mono fun key hk => ?_
    rcases mem_append.1 hk with hk | hk
    · exact hk
    · exact (keys_retain T w x).subset hk
  -- the totals that are left
  have htotal : ∀ key, r.total key = released T x ((x.retain T w).simplify u) key := by
    intro key
    rw [released]
    split
    · have hlt := h.references_lt ‹_›
      have hc := hrel.counted key (by rw [hpq.retaining.total]; assumption)
      rw [hpq.retaining.total, references_without] at hc
      omega
    · rw [hrel.uncounted key (by rw [hpq.retaining.total]; omega), hpq.retaining.total]
  have hdefined : defined ((x.retain T w).simplify u).tokens = (defined x.tokens).filter fun key => !(T key == 1) := by
    rw [defined_simplify, tokens_retain, defined_without]
  refine ⟨r, by rw [run_bind_of hq, hr], by rw [hall.failure], hall.length, ?_⟩
  refine { h.toRooted.rest hall with
    retaining := ⟨htotal, ?_⟩, settled := hready.settled_next hqr, fresh := ?_,
    distinct := ?_, ordered := ?_, dominated := ?_,
    agrees := fun y hy => h.agrees y (mem_cons_of_mem _ hy), exact := ?_ }
  · intro key hT
    rw [hrel.placed]
    have hret := hpq.retaining.placed key
    rw [flatMap_singleton] at hret
    refine hret fun hone => hT ?_
    have hz := h.references_eq_zero hone
    rw [flatMap_cons, references_append] at hz
    have hle := (thins_simplify u (x.retain T w)).references_le key
    rw [tokens_retain, references_without] at hle
    rw [released, if_pos (by omega), hone]
    omega
  · intro key hk hmem
    rw [flatMap_append, flatMap_singleton, mem_append] at hmem
    rcases hmem with hmem | hmem
    · exact h.fresh key (by rw [flatMap_cons]; exact mem_append_right _ hk) hmem
    · exact h.toRooted.apart (hsub key hmem) hk
  · rw [flatMap_append, flatMap_singleton, nodup_append]
    refine ⟨h.distinct, hready.toRooted.nodup.sublist ?_, ?_⟩
    · rw [flatMap_singleton]; exact keys_simplify u _
    · rintro key hk _ hk' rfl
      refine h.fresh key ?_ hk
      rw [flatMap_cons]
      exact mem_append_left _ (hsub key hk')
  · rw [flatMap_append, flatMap_singleton, dominated_append]
    exact ⟨h.ordered, (thins_simplify u _).dominated h.dominated_first⟩
  · have hdom := h.dominated
    rw [flatMap_cons, dominated_append] at hdom
    refine hdom.2.of_mem ?_
    intro key hk hr
    rw [flatMap_append, flatMap_singleton, defined_append, hdefined, mem_append]
    rcases mem_append.1 hk with hk | hk
    · exact .inl hk
    · refine .inr (mem_filter.2 ⟨hk, ?_⟩)
      rw [Bool.not_eq_true', beq_eq_false_iff_ne]
      intro hone
      have hz := h.references_eq_zero hone
      rw [flatMap_cons, references_append] at hz
      have hpos := references_pos_iff.2 hr
      omega
  · intro key hk
    have hk' : key ∈ defined ((done ++ x :: rest).flatMap tokens) := by
      rw [append_assoc, flatMap_append, defined_append, mem_append,
        singleton_append, flatMap_cons, defined_append, mem_append,
        hdefined] at hk
      rw [flatMap_append, defined_append, mem_append, flatMap_cons, defined_append, mem_append]
      rcases hk with hk | hk | hk
      · exact .inl hk
      · exact .inr (.inl (mem_filter.1 hk).1)
      · exact .inr (.inr hk)
    have he := h.exact key hk'
    rw [flatMap_append, flatMap_cons, references_append, references_append] at he
    rw [append_assoc, flatMap_append, singleton_append, flatMap_cons,
      references_append, references_append, released, if_pos (by omega)]
    omega

/-- The last stage leaves the finished trees, and totals that count what is left in them. -/
theorem runs_finish (hn : n = p.table.length) (h : Finishing u n T w done xs p) :
    ∃ q T' w', Runs (fun e => Pass.retain e >>= Pass.simplify) (xs.map head) (finish u T w xs) p q ∧
      q.failure = p.failure ∧ q.table.length = p.table.length ∧
      Finishing u n T' w' (done ++ finish u T w xs) [] q := by
  induction xs generalizing T w done p with
  | nil =>
    refine ⟨p, T, w, .nil p, rfl, rfl, ?_⟩
    rw [finish, append_nil]
    exact h
  | cons x rest ih =>
    rw [hn] at h
    obtain ⟨q, hq, hfail, hlen, hnext⟩ := run_finish h
    obtain ⟨r, T', w', hr, hfail', hlen', hlast⟩ := ih (by rw [hlen, hn]) (by rw [hn]; exact hnext)
    refine ⟨r, T', w', .cons hq hr, by rw [hfail', hfail], by rw [hlen', hlen], ?_⟩
    rw [finish]
    rwa [append_assoc] at hlast

end Pass
end Firmware
