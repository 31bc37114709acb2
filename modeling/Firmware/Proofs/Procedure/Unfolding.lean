import Firmware.Proofs.Procedure.Token

/-!
# Bodies under construction

An expression under construction mentions shared operands by references only. It is unfolded into
a tree by entering each operand once, at the first reference to it, which becomes its definition
(`Expr.unfold`). That is the reading of a body that resolving has to keep to.

Introducing definitions is unfolding: what the pass leaves in the expression and in the table
together is the unfolded tree (`run_introduce`), and the uses that it counts, negated, are those
in the tree.
-/

namespace Firmware

open List Token Expr

/-! ## Expressions under construction -/

namespace Expr

/-- The induction that takes all operands of an operator at once. -/
@[elab_as_elim]
theorem induct {motive : Expr → Prop} (leaf : ∀ l, motive (.leaf l))
    (unary : ∀ op x, motive x → motive (.unary op x))
    (store : ∀ target value, motive target → motive value → motive (.store target value))
    (many : ∀ op args, (∀ x ∈ args, motive x) → motive (.many op args))
    (reference : ∀ key noIncr, motive (.reference key noIncr))
    (definition : ∀ key noIncr, motive (.definition key noIncr))
    (inlined : ∀ key, motive (.inlined key)) (e : Expr) : motive e :=
  @rec motive (fun args => ∀ x ∈ args, motive x) leaf unary store many reference definition
    inlined (fun _ hx => absurd hx not_mem_nil)
    (fun _ _ hx hrest _ hy => by
      rcases mem_cons.1 hy with rfl | hy
      · exact hx
      · exact hrest _ hy) e

mutual

/-- Whether the expression is under construction: it mentions operands by references only, and
their keys are below `n`. -/
def isSource (n : Nat) : Expr → Bool
  | .leaf _ => true
  | .unary _ x => isSource n x
  | .store target value => isSource n target && isSource n value
  | .many _ args => areSource n args
  | .reference key _ => Nat.blt key n
  | .definition _ _ => false
  | .inlined _ => false

/-- Whether all of several expressions are under construction. -/
def areSource (n : Nat) : List Expr → Bool
  | [] => true
  | x :: rest => isSource n x && areSource n rest

end

theorem areSource_iff {n : Nat} {args : List Expr} : areSource n args = true ↔ ∀ x ∈ args, isSource n x = true := by
  induction args with
  | nil => simp only [areSource, not_mem_nil, false_implies, implies_true]
  | cons x rest ih => simp only [areSource, Bool.and_eq_true, ih, forall_mem_cons]

theorem Alike.isSource_iff {n : Nat} {es : List Expr} {e : Expr} (h : Alike es es e e) :
    e.isSource n = true ↔ ∀ f ∈ es, f.isSource n = true := by
  rw [← areSource_iff]
  cases h with
  | leaf l => rfl
  | many op es => rfl
  | _ => simp only [isSource, areSource, Bool.and_true]

/-- The induction on an expression under construction. -/
@[elab_as_elim]
theorem inductSource {n : Nat} {motive : ∀ e : Expr, e.isSource n = true → Prop}
    (above : ∀ es e he, Alike es es e e → (∀ f ∈ es, ∀ hf, motive f hf) → motive e he)
    (reference : ∀ key noIncr he, key < n → motive (.reference key noIncr) he) (e : Expr)
    (he : e.isSource n = true) : motive e he := by
  induction e using Expr.induct with
  | leaf l => exact above [] _ _ (.leaf l) fun _ h => absurd h not_mem_nil
  | unary op x ih => exact above [x] _ _ (.unary op x x) (forall_mem_singleton.2 ih)
  | store target value iht ihv =>
    exact above [target, value] _ _ (.store target value target value)
      (forall_mem_cons.2 ⟨iht, forall_mem_singleton.2 ihv⟩)
  | many op args ih => exact above args _ _ (.many op args args) ih
  | reference key noIncr => exact reference key noIncr he (by simpa only [isSource, Nat.blt_eq] using he)
  | _ => simp only [isSource, Bool.false_eq_true] at he

/-! ## Unfolding -/

mutual

/-- The tree of an expression, given the operands seen before and the trees of the others. -/
def unfoldStep (enter : List OperandKey → OperandKey → Tree) (seen : List OperandKey) :
    Expr → Tree
  | .leaf l => .leaf l
  | .unary op x => .unary op (unfoldStep enter seen x)
  | .store target value =>
    let target := unfoldStep enter seen target
    .store target (unfoldStep enter (seen ++ target.keys) value)
  | .many op args => .many op (unfoldSteps enter seen args)
  | .reference key noIncr =>
    if key ∈ seen then .reference key noIncr
    else .definition key noIncr (enter (seen ++ [key]) key)
  | .definition key noIncr => .reference key noIncr
  | .inlined key => .reference key false

/-- The trees of several expressions in a row. -/
def unfoldSteps (enter : List OperandKey → OperandKey → Tree) (seen : List OperandKey) :
    List Expr → List Tree
  | [] => []
  | x :: rest =>
    let x := unfoldStep enter seen x
    x :: unfoldSteps enter (seen ++ x.keys) rest

end

/-- The tree of an expression, entering operands to the given depth. -/
def unfoldTo (t : Operands) : Nat → List OperandKey → Expr → Tree
  | 0, seen, e => unfoldStep (fun _ _ => .leaf .nop) seen e
  | depth + 1, seen, e => unfoldStep (fun seen key => unfoldTo t depth seen (t.value key)) seen e

/-- The tree of an expression under construction: every operand that is not in `seen` is entered
at the first reference to it, which becomes its definition. -/
def unfold (t : Operands) (seen : List OperandKey) (e : Expr) : Tree :=
  unfoldTo t t.length seen e

/-- The trees of several expressions under construction, one after the other. -/
def unfoldAll (t : Operands) (seen : List OperandKey) : List Expr → List Tree
  | [] => []
  | e :: rest =>
    let x := e.unfold t seen
    x :: unfoldAll t (seen ++ x.keys) rest

end Expr

namespace Tree

variable {n : Nat} {seen : List OperandKey} {x : Tree}

/-- What an operand unfolds to at the given depth. -/
def unfoldInto (t : Operands) : Nat → List OperandKey → OperandKey → Tree
  | 0, _, _ => .leaf .nop
  | depth + 1, seen, key => unfoldTo t depth seen (t.value key)

theorem unfoldTo_eq (t : Operands) (depth : Nat) (seen : List OperandKey) (e : Expr) :
    unfoldTo t depth seen e = unfoldStep (unfoldInto t depth) seen e := by
  cases depth with
  | zero => rfl
  | succ depth => rfl

/-- A node unfolds to one of its kind, over what its operands unfold to in a row. -/
theorem over_unfoldStep {es : List Expr} {e : Expr} (h : Expr.Alike es es e e)
    (enter : List OperandKey → OperandKey → Tree) (seen : List OperandKey) :
    Over (unfoldSteps enter seen es) (unfoldStep enter seen e) ∧
      Expr.Alike es ((unfoldSteps enter seen es).map head) e (unfoldStep enter seen e).head := by
  cases h with
  | leaf l => exact ⟨.leaf l, by rw [unfoldStep, head]; exact .leaf l⟩
  | unary op e => exact ⟨.unary op _ _, by rw [unfoldStep, head]; exact .unary op _ _⟩
  | store e f => exact ⟨.store _ _ _ _, by rw [unfoldStep, head]; exact .store _ _ _ _⟩
  | many op es => exact ⟨.many op _ _ rfl, by rw [unfoldStep, head]; exact .many op _ _⟩

/-- What unfolding gives: keys below the bound, each entered once and not among those seen before,
by a definition in front of all references to it. -/
structure Unfolded (n : Nat) (seen : List OperandKey) (x : Tree) : Prop where
  below : x.Below n
  nodup : x.keys.Nodup
  fresh : ∀ key ∈ x.keys, key ∉ seen
  dominated : Token.Dominated seen x.tokens
  defined : defined x.tokens = x.keys

/-- What unfolding several expressions in a row gives. -/
structure UnfoldedAll (n : Nat) (seen : List OperandKey) (xs : List Tree) : Prop where
  below : ∀ x ∈ xs, x.Below n
  nodup : (xs.flatMap keys).Nodup
  fresh : ∀ key ∈ xs.flatMap keys, key ∉ seen
  dominated : Token.Dominated seen (xs.flatMap tokens)
  defined : defined (xs.flatMap tokens) = xs.flatMap keys

theorem UnfoldedAll.nil (n : Nat) (seen : List OperandKey) : UnfoldedAll n seen [] :=
  ⟨fun _ h => absurd h not_mem_nil, nodup_nil, fun _ h => absurd h not_mem_nil, trivial, rfl⟩

theorem UnfoldedAll.cons {xs : List Tree} (hx : Unfolded n seen x)
    (hxs : UnfoldedAll n (seen ++ x.keys) xs) : UnfoldedAll n seen (x :: xs) := by
  refine ⟨?_, ?_, ?_, ?_, ?_⟩
  · exact forall_mem_cons.2 ⟨hx.below, hxs.below⟩
  · rw [flatMap_cons, nodup_append]
    refine ⟨hx.nodup, hxs.nodup, ?_⟩
    rintro key hk _ hk' rfl
    exact hxs.fresh key hk' (mem_append_right _ hk)
  · intro key hk
    rw [flatMap_cons, mem_append] at hk
    rcases hk with hk | hk
    · exact hx.fresh key hk
    · exact fun hs => hxs.fresh key hk (mem_append_left _ hs)
  · rw [flatMap_cons, dominated_append, hx.defined]
    exact ⟨hx.dominated, hxs.dominated⟩
  · rw [flatMap_cons, flatMap_cons, defined_append, hx.defined, hxs.defined]

theorem Unfolded.over {xs : List Tree} (h : UnfoldedAll n seen xs) (hx : Over xs x) : Unfolded n seen x := by
  refine ⟨hx.below_iff.2 h.below, ?_, ?_, hx.dominated_iff.2 h.dominated, ?_⟩
  · rw [hx.keys_eq]; exact h.nodup
  · rw [hx.keys_eq]; exact h.fresh
  · rw [hx.defined_eq, hx.keys_eq]; exact h.defined

theorem Unfolded.definition {key : OperandKey} (noIncr : Bool) (hk : key < n) (hseen : key ∉ seen)
    (h : Unfolded key (seen ++ [key]) x) : Unfolded n seen (.definition key noIncr x) := by
  refine ⟨?_, ?_, ?_, ?_, ?_⟩
  · rw [Below]; exact ⟨hk, h.below⟩
  · rw [keys_definition, nodup_cons]
    exact ⟨fun hmem => h.fresh key hmem (mem_append_right _ mem_cons_self), h.nodup⟩
  · rw [keys_definition]
    intro j hj
    rcases mem_cons.1 hj with rfl | hj
    · exact hseen
    · exact fun hs => h.fresh j hj (mem_append_left _ hs)
  · rw [tokens_definition, Token.Dominated]
    refine h.dominated.mono ?_
    intro j hj
    rcases mem_append.1 hj with hj | hj
    · exact mem_cons_of_mem _ hj
    · exact mem_cons.2 (.inl (mem_singleton.1 hj))
  · rw [tokens_definition, defined_define, keys_definition, h.defined]

theorem Unfolded.reference {key : OperandKey} (noIncr : Bool) (hk : key < n) (hseen : key ∈ seen) :
    Unfolded n seen (.reference key noIncr) := by
  refine ⟨by rw [Below]; exact hk, by rw [keys_reference]; exact nodup_nil,
    by rw [keys_reference]; exact fun _ h => absurd h not_mem_nil, ?_, ?_⟩
  · rw [tokens_reference]; exact ⟨hseen, trivial⟩
  · rw [tokens_reference, keys_reference]; rfl

/-- A row of unfolded trees, given what unfolding one expression gives. -/
theorem unfoldedAll_steps {enter : List OperandKey → OperandKey → Tree} {args : List Expr}
    (hargs : ∀ e ∈ args, ∀ seen, Unfolded n seen (unfoldStep enter seen e))
    (seen : List OperandKey) : UnfoldedAll n seen (unfoldSteps enter seen args) := by
  induction args generalizing seen with
  | nil => exact UnfoldedAll.nil n seen
  | cons e rest ih =>
    exact UnfoldedAll.cons (hargs e mem_cons_self seen)
      (ih (fun e he => hargs e (mem_cons_of_mem _ he)) _)

theorem unfolded_step {enter : List OperandKey → OperandKey → Tree}
    (henter : ∀ seen key, key < n → Unfolded key seen (enter seen key)) {e : Expr}
    (he : e.isSource n = true) (seen : List OperandKey) :
    Unfolded n seen (unfoldStep enter seen e) := by
  induction e, he using inductSource generalizing seen with
  | above es e he hover ih =>
    exact Unfolded.over (unfoldedAll_steps (fun f hf => ih f hf (hover.isSource_iff.1 he f hf)) seen)
      (over_unfoldStep hover enter seen).1
  | reference key noIncr _ hk =>
    rw [unfoldStep]
    by_cases hseen : key ∈ seen
    · rw [if_pos hseen]
      exact Unfolded.reference noIncr hk hseen
    · rw [if_neg hseen]
      exact Unfolded.definition noIncr hk hseen (henter _ key hk)

end Tree

/-- A table under construction: an operand mentions earlier ones only. -/
def Operands.IsSource (t : Operands) : Prop := ∀ key, (t.value key).isSource key = true

theorem Tree.unfolded_unfoldTo {t : Operands} (ht : t.IsSource) {n depth : Nat} (hd : n ≤ depth)
    {e : Expr} (he : e.isSource n = true) (seen : List OperandKey) :
    Unfolded n seen (unfoldTo t depth seen e) := by
  induction depth generalizing n e seen with
  | zero =>
    rw [unfoldTo_eq]
    refine unfolded_step ?_ he seen
    intro _ key hk
    exact absurd (Nat.lt_of_lt_of_le hk hd) (Nat.not_lt_zero key)
  | succ depth ih =>
    rw [unfoldTo_eq]
    refine unfolded_step ?_ he seen
    intro seen key hk
    exact ih (Nat.le_of_lt_succ (Nat.lt_of_lt_of_le hk hd)) (ht key) seen

theorem Tree.unfoldedAll_unfoldAll {t : Operands} (ht : t.IsSource) {es : List Expr}
    (hes : ∀ e ∈ es, e.isSource t.length = true) (seen : List OperandKey) :
    UnfoldedAll t.length seen (unfoldAll t seen es) := by
  induction es generalizing seen with
  | nil => exact UnfoldedAll.nil _ seen
  | cons e rest ih =>
    obtain ⟨he, hrest⟩ := forall_mem_cons.1 hes
    exact UnfoldedAll.cons (unfolded_unfoldTo ht (Nat.le_refl _) he seen) (ih hrest _)

/-! ## Introducing definitions -/

namespace Pass

variable {p q : Pass} {t : Operands} {ks seen : List OperandKey} {key : OperandKey}
  {ts : List Token}

/-- The state while definitions are introduced: the operands in `seen` are counted, the others are
as in the table under construction. -/
structure Introducing (t : Operands) (seen : List OperandKey) (p : Pass) : Prop where
  length : p.table.length = t.length
  value : ∀ key, key ∉ seen → p.table.value key = t.value key
  fresh : ∀ key, key ∉ seen → p.total key = 0
  total : ∀ key ∈ seen, p.total key < 0
  current : ∀ key, p.current key = 0
  placed : ∀ key, p.placed key = 0

/-- From `p` to `q` the operands with keys in `ks` are introduced, and the uses in `ts` counted. -/
structure Introduces (t : Operands) (seen ks : List OperandKey) (ts : List Token) (p q : Pass) :
    Prop where
  state : Introducing t (seen ++ ks) q
  keeps : Keeps ks p q
  total : ∀ key, q.total key = p.total key - uses ts key

theorem Introduces.refl (h : Introducing t seen p) : Introduces t seen [] [] p p := by
  refine ⟨by rwa [append_nil], Keeps.refl p, ?_⟩
  intro key
  exact (Int.sub_zero _).symm

theorem Introduces.trans {ls : List OperandKey} {us : List Token} {r : Pass}
    (h : Introduces t seen ks ts p q) (h' : Introduces t (seen ++ ks) ls us q r) :
    Introduces t seen (ks ++ ls) (ts ++ us) p r := by
  refine ⟨by rw [← append_assoc]; exact h'.state, h.keeps.trans h'.keeps, ?_⟩
  intro key
  rw [h'.total, h.total, uses_append]
  omega

/-- An operand is changed and counted from then on. -/
theorem Introducing.updated {seen' : List OperandKey} (h : Introducing t seen p) (hk : key < t.length)
    {f : Operand → Operand} (hseen : ∀ j, j ∈ seen' ↔ j ∈ seen ∨ j = key)
    (htotal : (f (p.table.entry key)).totalUses < 0) (hcurrent : (f (p.table.entry key)).currentUses = 0)
    (hplaced : (f (p.table.entry key)).placedUses = 0) : Introducing t seen' (p.updated key f) := by
  have hself := entry_updated_self (by rw [h.length]; exact hk) f
  have hkeeps := keeps_updated p key f
  have hnot : ∀ j, j ∉ seen' → j ∉ seen ∧ j ≠ key := fun j hj => not_or.1 fun hs => hj ((hseen j).2 hs)
  refine ⟨by rw [hkeeps.length, h.length], ?_, ?_, ?_, ?_, ?_⟩
  · intro j hj
    rw [hkeeps.value j (by rw [mem_singleton]; exact (hnot j hj).2), h.value j (hnot j hj).1]
  · intro j hj
    rw [total_updated_ne (hnot j hj).2, h.fresh j (hnot j hj).1]
  · intro j hj
    by_cases hjk : j = key
    · rw [hjk, Pass.total, hself]; exact htotal
    · rw [total_updated_ne hjk]
      exact h.total j (((hseen j).1 hj).resolve_right hjk)
  · intro j
    by_cases hjk : j = key
    · rw [hjk, Pass.current, hself]; exact hcurrent
    · rw [Pass.current, entry_updated_ne hjk]; exact h.current j
  · intro j
    by_cases hjk : j = key
    · rw [hjk, Pass.placed, hself]; exact hplaced
    · rw [Pass.placed, entry_updated_ne hjk]; exact h.placed j

/-- A reference to an operand that was seen before is counted. -/
theorem introduces_reference (h : Introducing t seen p) (hk : key < t.length) (hseen : key ∈ seen) :
    Introduces t seen [] [.refer key] p
      (p.updated key fun o => { o with totalUses := o.totalUses - 1 }) := by
  have htotal : (p.table.entry key).totalUses < 0 := h.total key hseen
  refine ⟨?_, keeps_updated_counts p key fun _ => rfl, ?_⟩
  · rw [append_nil]
    refine h.updated hk (fun j => ?_) (by simp only; omega) (h.current key) (h.placed key)
    exact ⟨.inl, fun hj => hj.elim id fun heq => heq ▸ hseen⟩
  · intro j
    by_cases hj : j = key
    · rw [hj, total_updated_self (by rw [h.length]; exact hk) (· - 1), uses_refer_self, uses_nil]
      rfl
    · rw [total_updated_ne hj, uses_refer_ne hj, uses_nil]
      exact (Int.sub_zero _).symm

/-- The first use of an operand opens its count. -/
theorem introducing_first (h : Introducing t seen p) (hk : key < t.length) (hseen : key ∉ seen) :
    Introduces t seen [key] [.define key] p
      (p.updated key fun o => { o with totalUses := -1, currentUses := 0, placedUses := 0 }) := by
  refine ⟨h.updated hk (fun j => ?_) (Int.negSucc_lt_zero 0) rfl rfl, keeps_updated p key _, ?_⟩
  · rw [mem_append, mem_singleton]
  · intro j
    by_cases hj : j = key
    · rw [hj, h.fresh key hseen, Pass.total, entry_updated_self (by rw [h.length]; exact hk), uses_define_self, uses_nil]
      rfl
    · rw [total_updated_ne hj, uses_define_ne hj, uses_nil]
      exact (Int.sub_zero _).symm

/-- An operand takes up what it was turned into. -/
theorem Introduces.update (h : Introduces t seen ks ts p q) (hk : key ∈ ks) (hlt : key < t.length) (x : Expr) :
    Introduces t seen ks ts p (q.updated key fun o => { o with value := x }) := by
  have hmem : key ∈ seen ++ ks := mem_append_right _ hk
  refine ⟨h.state.updated hlt (fun j => ?_) (h.state.total key hmem) (h.state.current key) (h.state.placed key), ?_, ?_⟩
  · exact ⟨.inl, fun hj => hj.elim id fun heq => heq ▸ hmem⟩
  · refine (h.keeps.updated key _).mono fun j hj => ?_
    rcases mem_cons.1 hj with rfl | hj
    · exact hk
    · exact hj
  · intro j
    rw [(entry_updated_value q key j x).1, h.total j]

/-- The step, begun in `p`, introduces the operands that the tree enters and gives its expression. -/
def IntroducedAs (t : Operands) (seen : List OperandKey) (x : Tree) (m : PassM Expr) (p : Pass) :
    Prop :=
  ∃ q, m.run p = (x.head, q) ∧ Introduces t seen x.keys x.tokens p q ∧ Tree.Stored q.table x

theorem traverses_introduce (visit : Expr → PassM Expr) : Traverses (introduceStep visit) (introduceSteps visit) :=
  ⟨fun _ => rfl, fun _ _ => rfl, fun _ _ => rfl, fun _ _ => rfl, rfl, fun _ _ => rfl⟩

section

variable {visit : Expr → PassM Expr} {enter : List OperandKey → OperandKey → Tree} {n : Nat}

/-- Introducing in several expressions in a row. -/
theorem run_introduceSteps {args : List Expr}
    (hunf : ∀ e ∈ args, ∀ seen, Tree.Unfolded n seen (unfoldStep enter seen e))
    (hrun : ∀ e ∈ args, ∀ seen p, Introducing t seen p →
      IntroducedAs t seen (unfoldStep enter seen e) (introduceStep visit e) p) (h : Introducing t seen p) :
    ∃ q, (introduceSteps visit args).run p = ((unfoldSteps enter seen args).map Tree.head, q) ∧
      Introduces t seen ((unfoldSteps enter seen args).flatMap Tree.keys)
        ((unfoldSteps enter seen args).flatMap Tree.tokens) p q ∧
      ∀ x ∈ unfoldSteps enter seen args, Tree.Stored q.table x := by
  induction args generalizing seen p with
  | nil => exact ⟨p, rfl, Introduces.refl h, fun _ hx => absurd hx not_mem_nil⟩
  | cons e rest ih =>
    obtain ⟨q, hq, hpq, hx⟩ := hrun e mem_cons_self seen p h
    obtain ⟨r, hr, hqr, hrest⟩ := ih (fun e he => hunf e (mem_cons_of_mem _ he))
      (fun e he => hrun e (mem_cons_of_mem _ he)) hpq.state
    have hfresh := (Tree.unfoldedAll_steps (fun e he => hunf e (mem_cons_of_mem _ he))
      (seen ++ (unfoldStep enter seen e).keys)).fresh
    refine ⟨r, ?_, ?_, ?_⟩
    · rw [introduceSteps, run_bind_of hq, run_bind_of hr]
      rfl
    · simp only [unfoldSteps, flatMap_cons]
      exact hpq.trans hqr
    · rw [unfoldSteps, forall_mem_cons]
      refine ⟨hqr.keeps.stored hx ?_, hrest⟩
      exact fun key hk hmem => hfresh key hmem (mem_append_right _ hk)

theorem run_introduceStep (hn : n ≤ t.length) (hunf : ∀ seen key, key < n → Tree.Unfolded key seen (enter seen key))
    (hvisit : ∀ seen key p, key < n → Introducing t seen p →
      IntroducedAs t seen (enter seen key) (visit (t.value key)) p) {e : Expr}
    (he : e.isSource n = true) (h : Introducing t seen p) :
    IntroducedAs t seen (unfoldStep enter seen e) (introduceStep visit e) p := by
  induction e, he using inductSource generalizing seen p with
  | above es e he hnode ih =>
    have hes := hnode.isSource_iff.1 he
    obtain ⟨hover, halike⟩ := Tree.over_unfoldStep hnode enter seen
    obtain ⟨q, hq, hpq, hx⟩ := run_introduceSteps (fun f hf => Tree.unfolded_step hunf (hes f hf))
      (fun f hf _ _ h => ih f hf (hes f hf) h) h
    refine ⟨q, (traverses_introduce visit).run_alike halike hq, ⟨?_, ?_, ?_⟩, hover.stored_iff.2 hx⟩
    · rw [hover.keys_eq]; exact hpq.state
    · rw [hover.keys_eq]; exact hpq.keeps
    · intro key
      rw [hover.uses_eq, hpq.total]
  | reference key noIncr _ hk =>
    have hkt : key < t.length := Nat.lt_of_lt_of_le hk hn
    rw [introduceStep, unfoldStep]
    by_cases hseen : key ∈ seen
    · rw [if_pos hseen]
      have htotal : ((p.table.entry key).totalUses == 0) = false := by
        rw [beq_eq_false_iff_ne]
        exact Int.ne_of_lt (h.total key hseen)
      refine ⟨p.updated key fun o => { o with totalUses := o.totalUses - 1 }, ?_, ?_,
        Tree.stored_of_keys_eq_nil (Tree.keys_reference key noIncr)⟩
      · rw [run_bind_of (run_operand key p), htotal, Tree.head]
        rfl
      · rw [Tree.keys_reference, Tree.tokens_reference]
        exact introduces_reference h hkt hseen
    · rw [if_neg hseen]
      have htotal : ((p.table.entry key).totalUses == 0) = true := by
        rw [beq_iff_eq]
        exact h.fresh key hseen
      have hfirst := introducing_first h hkt hseen
      obtain ⟨q, hq, hpq, hx⟩ := hvisit _ key _ hk hfirst.state
      have hvalue : (p.updated key fun o =>
          { o with totalUses := -1, currentUses := 0, placedUses := 0 }).table.value key =
          t.value key := by
        rw [← h.value key hseen]
        refine (keeps_updated_counts p key ?_).value key not_mem_nil
        exact fun _ => rfl
      have hself := (hunf (seen ++ [key]) key hk).fresh
      refine ⟨q.updated key fun o => { o with value := (enter (seen ++ [key]) key).head }, ?_, ?_, ?_⟩
      · rw [run_bind_of (run_operand key p), htotal, if_pos rfl, run_bind_of (run_update key _ p),
          run_bind_of (run_inside (by rw [hvalue]; exact hq)), Tree.head]
        rfl
      · rw [Tree.keys_definition, Tree.tokens_definition]
        exact (hfirst.trans hpq).update mem_cons_self hkt _
      · refine (Tree.Enters.definition noIncr).stored_iff.2 ⟨?_, ?_, ?_⟩
        · rw [length_updated, hpq.state.length]
          exact hkt
        · exact value_updated_self (by rw [hpq.state.length]; exact hkt) _
        · refine stored_updated hx (fun hj => ?_) _
          exact hself key hj (mem_append_right _ mem_cons_self)

end

/-- Introducing definitions is unfolding. -/
theorem run_introduce (ht : t.IsSource) {e : Expr} (he : e.isSource t.length = true)
    (h : Introducing t seen p) : IntroducedAs t seen (e.unfold t seen) (introduce e) p := by
  have hdeep : ∀ depth n, n ≤ depth → n ≤ t.length → ∀ e : Expr, e.isSource n = true → ∀ seen p, Introducing t seen p →
      IntroducedAs t seen (unfoldTo t depth seen e) (deep introduceStep depth e) p := by
    intro depth
    induction depth with
    | zero =>
      intro n hnd hnt e he seen p h
      refine run_introduceStep hnt ?_ ?_ he h
      · exact fun _ key hk => absurd (Nat.lt_of_lt_of_le hk hnd) (Nat.not_lt_zero key)
      · exact fun _ key _ hk => absurd (Nat.lt_of_lt_of_le hk hnd) (Nat.not_lt_zero key)
    | succ depth ih =>
      intro n hnd hnt e he seen p h
      have hkey : ∀ {key}, key < n → key ≤ depth :=
        fun hk => Nat.le_of_lt_succ (Nat.lt_of_lt_of_le hk hnd)
      refine run_introduceStep hnt ?_ ?_ he h
      · exact fun seen key hk => Tree.unfolded_unfoldTo ht (hkey hk) (ht key) seen
      · exact fun seen key p hk h =>
          ih key (hkey hk) (Nat.le_of_lt (Nat.lt_of_lt_of_le hk hnt)) _ (ht key) seen p h
  obtain ⟨q, hq, hpq, hx⟩ := hdeep _ _ (Nat.le_refl _) (Nat.le_refl _) e he seen p h
  refine ⟨q, ?_, hpq, hx⟩
  rw [introduce, run_run, ← deep_eq introduceStep, h.length]
  exact hq

end Pass

end Firmware
