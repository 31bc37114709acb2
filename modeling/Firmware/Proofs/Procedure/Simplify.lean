import Mathlib.Data.List.Flatten
import Mathlib.Data.List.Forall2
import Firmware.Proofs.Procedure.Uncounted

/-!
# Simplification

What simplification does to a tree, and that the pass does it. Its part in the row of tokens is
small: references are taken out, and nothing else changes (`thins_simplify`). A reference that is
taken out after uses were counted is taken off the count again, so a count that was the number of
uses before is so afterwards (`Releases`).

Simplified trees are settled: their counting stands only around values that are counted
(`tidy_simplify`), and that is what lets later passes ask the table. Nothing in them gives way any
more (`normal_simplify`).
-/

namespace Firmware

open Expr
namespace Tree

open List

variable {x y : Tree} {u : OperandKey → Bool} {op : UnaryOp} {args : List Tree} {key : OperandKey}

/-! ## The simplified tree -/

/-- The operand of an increment, also of one that stands inlined. -/
def incremented : Tree → Option Tree
  | .unary .incr y => some y
  | .inlined _ (.unary .incr y) => some y
  | _ => none

/-- What an operator over a simplified operand gives way to, if it does. -/
def collapse (u : OperandKey → Bool) (op : UnaryOp) (x : Tree) : Option Tree :=
  match op with
  | .incr => if uncountedStep u x.head then some x else none
  | .decr => if uncountedStep u x.head then some x else x.incremented
  | _ => none

/-- Drops the items of a sequence that may be dropped, the last one excepted. -/
@[simp] def dropItems : List Tree → List Tree
  | [] => []
  | [x] => [x]
  | x :: rest => if x.head.isPure then dropItems rest else x :: dropItems rest

/-- A list of simplified operands under an operator. -/
@[simp] def collapseMany (op : ManyOp) (args : List Tree) : Tree :=
  match op with
  | .sequence => .many .sequence (dropItems args)
  | op => .many op args

/-- The simplified tree, where `u` tells which operands are not counted. -/
@[simp] def simplify (u : OperandKey → Bool) : Tree → Tree
  | .leaf l => .leaf l
  | .reference key noIncr => .reference key noIncr
  | .definition key noIncr x => .definition key noIncr (x.simplify u)
  | .inlined key (.unary op x) =>
    (collapse u op (x.simplify u)).getD (.inlined key (.unary op (x.simplify u)))
  | .inlined key x => .inlined key (x.simplify u)
  | .unary op x => (collapse u op (x.simplify u)).getD (.unary op (x.simplify u))
  | .store target value => .store (target.simplify u) (value.simplify u)
  | .many op args => collapseMany op (args.map (simplify u))

/-- The induction that looks at an operator right inside of an inlined operand. -/
@[elab_as_elim]
theorem inductInlined {motive : Tree → Prop} (leaf : ∀ l, motive (.leaf l))
    (unary : ∀ op x, motive x → motive (.unary op x))
    (store : ∀ target value, motive target → motive value → motive (.store target value))
    (many : ∀ op args, (∀ x ∈ args, motive x) → motive (.many op args))
    (reference : ∀ key noIncr, motive (.reference key noIncr))
    (definition : ∀ key noIncr x, motive x → motive (.definition key noIncr x))
    (inlinedUnary : ∀ key op x, motive x → motive (.inlined key (.unary op x)))
    (inlined : ∀ key x, (∀ op y, x ≠ .unary op y) → motive x → motive (.inlined key x))
    (x : Tree) : motive x := by
  suffices h : motive x ∧ ∀ op y, x = .unary op y → motive y from h.1
  induction x with
  | leaf l => exact ⟨leaf l, fun _ _ h => nomatch h⟩
  | unary op x ih =>
    refine ⟨unary op x ih.1, ?_⟩
    intro op' y h
    rw [Tree.unary.injEq] at h
    rw [← h.2]
    exact ih.1
  | store target value iht ihv => exact ⟨store _ _ iht.1 ihv.1, fun _ _ h => nomatch h⟩
  | many op args ih => exact ⟨many op args fun x hx => (ih x hx).1, fun _ _ h => nomatch h⟩
  | reference key noIncr => exact ⟨reference key noIncr, fun _ _ h => nomatch h⟩
  | definition key noIncr x ih => exact ⟨definition key noIncr x ih.1, fun _ _ h => nomatch h⟩
  | inlined key x ih =>
    refine ⟨?_, fun _ _ h => nomatch h⟩
    by_cases hx : ∃ op y, x = .unary op y
    · obtain ⟨op, y, rfl⟩ := hx
      exact inlinedUnary key op y (ih.2 op y rfl)
    · exact inlined key x (fun op y h => hx ⟨op, y, h⟩) ih.1

theorem simplify_inlined (h : ∀ op y, x ≠ .unary op y) :
    simplify u (.inlined key x) = .inlined key (x.simplify u) := by
  rw [simplify]
  exact h

/-! ## Trees that lose something -/

/-- A relation on rows of tokens that goes part by part and leaves effects alone. -/
structure RowRelation (R : List Token → List Token → Prop) : Prop where
  effect : ∀ e : Option Effect, R (e.map .effect).toList (e.map .effect).toList
  append : ∀ {ts us vs ws}, R ts us → R vs ws → R (ts ++ vs) (us ++ ws)

theorem rowRelation_thins : RowRelation Token.Thins := ⟨fun _ => Token.Thins.refl _, Token.Thins.append⟩

/-- What becomes of a tree that loses something: its rows of tokens are related, no other operands
are entered, and the value stays. -/
structure Reduces (R : List Token → List Token → Prop) (u : OperandKey → Bool) (x y : Tree) : Prop where
  tokens : R x.tokens y.tokens
  keys : y.keys.Sublist x.keys
  below : ∀ {n : Nat}, x.Below n → y.Below n
  agrees : Agrees u x → uncountableStep u y.head = uncountableStep u x.head ∧ Agrees u y

variable {R : List Token → List Token → Prop}

theorem Reduces.refl (h : R x.tokens x.tokens) : Reduces R u x x :=
  ⟨h, List.Sublist.refl _, id, fun ha => ⟨rfl, ha⟩⟩

theorem Reduces.then {z : Tree} {R' S : List Token → List Token → Prop} (h : Reduces R u x y) (h' : Reduces R' u y z)
    (hS : S x.tokens z.tokens) : Reduces S u x z := by
  refine ⟨hS, h'.keys.trans h.keys, fun hx => h'.below (h.below hx), fun hx => ?_⟩
  obtain ⟨hv, hy⟩ := h.agrees hx
  obtain ⟨hv', hz⟩ := h'.agrees hy
  exact ⟨hv'.trans hv, hz⟩

theorem Reduces.trans {z : Tree} (h : Reduces Token.Thins u x y) (h' : Reduces Token.Thins u y z) :
    Reduces Token.Thins u x z := h.then h' (h.tokens.trans h'.tokens)

/-- A node loses what its operands lose. -/
theorem Reduces.alike {xs ys : List Tree} (hR : RowRelation R) (h : Forall₂ (Reduces R u) xs ys)
    (ha : Alike xs ys x y) : Reduces R u x y := by
  have hrow : R (xs.flatMap Tree.tokens) (ys.flatMap Tree.tokens) ∧
      (ys.flatMap Tree.keys).Sublist (xs.flatMap Tree.keys) ∧
      (∀ {n : Nat}, (∀ z ∈ xs, z.Below n) → ∀ z ∈ ys, z.Below n) ∧ ((∀ z ∈ xs, Agrees u z) →
        (ys.map head).map (uncountableStep u) = (xs.map head).map (uncountableStep u) ∧ ∀ z ∈ ys, Agrees u z) := by
    clear ha
    induction h with
    | nil => exact ⟨hR.effect none, List.Sublist.refl _, id, fun h => ⟨rfl, h⟩⟩
    | cons hxy _ ih =>
      obtain ⟨ht, hk, hb, hag⟩ := ih
      simp only [flatMap_cons, map_cons, forall_mem_cons]
      refine ⟨hR.append hxy.tokens ht, hxy.keys.append hk, fun hz => ⟨hxy.below hz.1, hb hz.2⟩, fun hz => ?_⟩
      obtain ⟨hv, hy⟩ := hxy.agrees hz.1
      obtain ⟨hvs, hys⟩ := hag hz.2
      exact ⟨by rw [hv, hvs], hy, hys⟩
  obtain ⟨ht, hk, hb, hag⟩ := hrow
  obtain ⟨e, hx, hy⟩ := ha.tokens_eq
  refine ⟨?_, ?_, fun hz => ha.right.below_iff.2 (hb (ha.left.below_iff.1 hz)), fun hz => ?_⟩
  · rw [hx, hy]; exact hR.append (hR.effect e) ht
  · rw [ha.left.keys_eq, ha.right.keys_eq]; exact hk
  · obtain ⟨hv, hys⟩ := hag (ha.left.agrees_iff.1 hz)
    exact ⟨(ha.heads.uncountable_eq hv.symm).symm, ha.right.agrees_iff.2 hys⟩

theorem Enters.uncountable_eq (h : Enters key x y) : uncountableStep u y.head = u key := by
  cases h with
  | definition noIncr => rw [head]; rfl
  | inlined => rw [head]; rfl

/-- What an operand loses the mention that enters it loses. -/
theorem Reduces.enters {x' y' : Tree} (h : Reduces R u x y) (hx : Enters key x x') (hy : Enters key y y')
    (ht : R x'.tokens y'.tokens) : Reduces R u x' y' := by
  refine ⟨ht, by rw [hx.keys_eq, hy.keys_eq]; exact h.keys.cons_cons key, fun hb => ?_, fun ha => ?_⟩
  · obtain ⟨hk, hb⟩ := hx.below_iff.1 hb
    exact hy.below_iff.2 ⟨hk, h.below hb⟩
  · obtain ⟨hk, hag⟩ := hx.agrees_iff.1 ha
    obtain ⟨hv, hag⟩ := h.agrees hag
    exact ⟨hy.uncountable_eq.trans hx.uncountable_eq.symm, hy.agrees_iff.2 ⟨hv.trans hk, hag⟩⟩

/-- A mention of an operand may give way to what the operand holds. -/
theorem Enters.reduces (h : Enters key x y) (ht : R y.tokens x.tokens) : Reduces R u y x := by
  refine ⟨ht, by rw [h.keys_eq]; exact sublist_cons_self key _, fun hb => ?_, fun ha => ?_⟩
  · obtain ⟨hk, hb⟩ := h.below_iff.1 hb
    exact hb.mono (Nat.le_of_lt hk)
  · obtain ⟨hk, hx⟩ := h.agrees_iff.1 ha
    exact ⟨hk.trans h.uncountable_eq.symm, hx⟩

/-! ## Operators that give way -/

/-- What an operator gives way to: its operand, or what is incremented there. -/
theorem collapse_cases (h : collapse u op x = some y) :
    (op = .incr ∨ op = .decr) ∧ ((uncountedStep u x.head = true ∧ y = x) ∨ (op = .decr ∧ x.incremented = some y)) := by
  cases op with
  | incr =>
    rw [collapse] at h
    split at h
    · exact ⟨.inl rfl, .inl ⟨‹_›, (Option.some.inj h).symm⟩⟩
    · exact absurd h (by simp only [reduceCtorEq, not_false_eq_true])
  | decr =>
    rw [collapse] at h
    split at h
    · exact ⟨.inr rfl, .inl ⟨‹_›, (Option.some.inj h).symm⟩⟩
    · exact ⟨.inr rfl, .inr ⟨rfl, h⟩⟩
  | _ => exact absurd h (by simp only [collapse, reduceCtorEq, not_false_eq_true])

theorem incremented_cases (h : x.incremented = some y) :
    x = .unary .incr y ∨ ∃ key, x = .inlined key (.unary .incr y) := by
  unfold incremented at h
  split at h
  · exact .inl (by rw [Option.some.inj h])
  · exact .inr ⟨_, by rw [Option.some.inj h]⟩
  · exact absurd h (by simp only [reduceCtorEq, not_false_eq_true])

/-- A property of a tree that passes to the operand of a counting operator, inlined or not, passes
to what an operator gives way to. -/
theorem collapse_induct {motive : Tree → Prop} (h : collapse u op x = some y) (hx : motive x)
    (hincr : ∀ y, motive (.unary .incr y) → motive y) (hinlined : ∀ key y, motive (.inlined key y) → motive y) :
    motive y := by
  rcases (collapse_cases h).2 with ⟨_, rfl⟩ | ⟨_, h⟩
  · exact hx
  · rcases incremented_cases h with rfl | ⟨key, rfl⟩
    · exact hincr y hx
    · exact hincr y (hinlined key _ hx)

/-! ## Tokens -/

theorem tokens_of_collapse (h : collapse u op x = some y) : y.tokens = x.tokens := by
  refine collapse_induct (motive := fun z => z.tokens = x.tokens) h rfl ?_ ?_
  · intro z hz
    rw [tokens_unary] at hz
    exact hz
  · intro key z hz
    rw [tokens_inlined] at hz
    exact hz

/-- Counting goes with no token and leaves the value. -/
theorem reduces_counting (h : op = .incr ∨ op = .decr) (x : Tree) : Reduces Token.Thins u (.unary op x) x := by
  refine ⟨?_, by rw [keys_unary], fun hb => by rwa [Below] at hb, fun ha => ⟨?_, agrees_unary.1 ha⟩⟩
  · rw [tokens_unary]
    rcases h with rfl | rfl
    · exact Token.Thins.refl _
    · exact Token.Thins.refl _
  · rw [head_unary]
    rcases h with rfl | rfl
    · rfl
    · rfl

theorem reduces_collapse (op : UnaryOp) (x : Tree) :
    Reduces Token.Thins u (.unary op x) ((collapse u op x).getD (.unary op x)) := by
  cases hc : collapse u op x with
  | none => exact .refl (Token.Thins.refl _)
  | some y =>
    have hop := reduces_counting (u := u) (collapse_cases hc).1 x
    refine collapse_induct (motive := fun z => Reduces Token.Thins u (.unary op x) z) hc hop (fun z hz => ?_) fun k z hz => ?_
    · have hnext := reduces_counting (u := u) (.inl rfl) z
      exact hz.trans hnext
    · have hnext : Reduces Token.Thins u (.inlined k z) z :=
        Enters.inlined.reduces (by rw [tokens_inlined]; exact Token.Thins.refl _)
      exact hz.trans hnext

/-- Only references and what leaves no token can be dropped. -/
theorem pure_cases (h : x.head.isPure = true) :
    x.keys = [] ∧ ((x.tokens = [] ∧ ∀ key noIncr, x.head ≠ .reference key noIncr) ∨
      ∃ key noIncr, x = .reference key noIncr) := by
  cases x with
  | leaf l =>
    refine ⟨keys_leaf l, .inl ⟨?_, by rw [head]; rintro _ _ ⟨⟩⟩⟩
    rw [tokens, walk]
    rw [head] at h
    cases l with
    | number value => rfl
    | pointer label tag => rfl
    | cell c => rfl
    | _ => simp only [isPure, isStateless, isLiteral, Bool.false_eq_true] at h
  | reference key noIncr => exact ⟨keys_reference key noIncr, .inr ⟨key, noIncr, rfl⟩⟩
  | _ => simp only [head, isPure, isStateless, isLiteral, Bool.false_eq_true] at h

theorem thins_nil_of_pure (h : x.head.isPure = true) : Token.Thins x.tokens [] := by
  rcases (pure_cases h).2 with ⟨ht, _⟩ | ⟨key, noIncr, rfl⟩
  · rw [ht]; exact .nil
  · rw [tokens_reference]; exact .drop key .nil

theorem thins_dropItems (xs : List Tree) : Token.Thins (xs.flatMap tokens) ((dropItems xs).flatMap tokens) := by
  induction xs with
  | nil => exact .nil
  | cons x rest ih =>
    cases rest with
    | nil => exact Token.Thins.refl _
    | cons y rest =>
      rw [dropItems, flatMap_cons]
      split
      · exact (thins_nil_of_pure ‹_›).append ih
      · rw [flatMap_cons]
        exact (Token.Thins.refl _).append ih
      · exact fun h => nomatch h

theorem dropItems_sublist (xs : List Tree) : (dropItems xs).Sublist xs := by
  induction xs with
  | nil => exact nil_sublist _
  | cons x rest ih =>
    cases rest with
    | nil => exact List.Sublist.refl _
    | cons y rest =>
      rw [dropItems]
      split
      · exact ih.cons x
      · exact ih.cons_cons x
      · exact fun h => nomatch h

theorem getLast?_dropItems (xs : List Tree) : (dropItems xs).getLast? = xs.getLast? := by
  induction xs with
  | nil => rfl
  | cons x rest ih =>
    cases rest with
    | nil => rfl
    | cons y rest =>
      rw [dropItems, getLast?_cons_cons, ← ih]
      · split
        · rfl
        · have hne : dropItems (y :: rest) ≠ [] := by
            intro h
            rw [h, getLast?_nil] at ih
            exact absurd ih.symm (by simp only [getLast?_cons, reduceCtorEq, not_false_eq_true])
          obtain ⟨z, zs, hz⟩ := exists_cons_of_ne_nil hne
          rw [hz, getLast?_cons_cons]
      · exact fun h => nomatch h

/-- Only a sequence loses items. -/
theorem collapseMany_cases (op : ManyOp) (args : List Tree) : collapseMany op args = .many op args ∨
      op = .sequence ∧ collapseMany op args = .many op (dropItems args) := by
  cases op with
  | sequence => exact .inr ⟨rfl, rfl⟩
  | _ => exact .inl rfl

theorem reduces_collapseMany (op : ManyOp) (args : List Tree) :
    Reduces Token.Thins u (.many op args) (collapseMany op args) := by
  rcases collapseMany_cases op args with h | ⟨rfl, h⟩
  · rw [h]; exact .refl (Token.Thins.refl _)
  · have hsub := dropItems_sublist args
    rw [h]
    refine ⟨?_, ?_, fun hb => ?_, fun ha => ⟨?_, ?_⟩⟩
    · rw [tokens_many, tokens_many]; exact .keep _ (thins_dropItems args)
    · rw [keys_many, keys_many]; exact hsub.flatMap _
    · rw [Below] at hb ⊢; exact fun x hx => hb x (hsub.subset hx)
    · simp only [head, uncountableStep, uncountableLast_eq, getLast?_map, getLast?_dropItems]
    · exact (Alike.many _ _ _ rfl).agrees_iff.2 fun x hx => (Alike.many _ _ _ rfl).agrees_iff.1 ha x (hsub.subset hx)

section

variable (u : OperandKey → Bool) (x : Tree)

/-- Simplification takes references out of the row of tokens and keeps the value. -/
theorem reduces_simplify : Reduces Token.Thins u x (x.simplify u) := by
  induction x using inductInlined with
  | unary op x ih =>
    have hop := Reduces.alike rowRelation_thins (.cons ih .nil) (.unary op x (x.simplify u))
    have hcol := reduces_collapse (u := u) op (x.simplify u)
    rw [simplify]
    exact hop.trans hcol
  | store target value iht ihv =>
    rw [simplify]
    exact .alike rowRelation_thins (.cons iht (.cons ihv .nil)) (.store _ _ _ _)
  | many op args ih =>
    have hrow := forall₂_map_right_iff.2 (forall₂_same.2 ih)
    have hop := Reduces.alike rowRelation_thins hrow (.many op _ _ (length_map _))
    have hcol := reduces_collapseMany (u := u) op (args.map (simplify u))
    rw [simplify]
    exact hop.trans hcol
  | definition key noIncr x ih =>
    rw [simplify]
    refine ih.enters (.definition noIncr) (.definition noIncr) ?_
    rw [tokens_definition, tokens_definition]
    exact .keep _ ih.tokens
  | inlinedUnary key op x ih =>
    have hop := Reduces.alike rowRelation_thins (.cons ih .nil) (.unary op x (x.simplify u))
    have hcol := reduces_collapse (u := u) op (x.simplify u)
    rw [simplify]
    cases hc : collapse u op (x.simplify u) with
    | none =>
      refine hop.enters .inlined .inlined ?_
      rw [Option.getD_none, tokens_inlined, tokens_inlined]
      exact hop.tokens
    | some y =>
      rw [hc, Option.getD_some] at hcol
      have hin : Reduces Token.Thins u (.inlined key (.unary op x)) (.unary op x) :=
        Enters.inlined.reduces (by rw [tokens_inlined]; exact Token.Thins.refl _)
      have hin' := hin.trans hop
      exact hin'.trans hcol
  | inlined key x hx ih =>
    rw [simplify_inlined hx]
    refine ih.enters .inlined .inlined ?_
    rw [tokens_inlined, tokens_inlined]
    exact ih.tokens
  | _ => rw [simplify]; exact .refl (Token.Thins.refl _)

theorem thins_simplify : Token.Thins x.tokens (x.simplify u).tokens :=
  (reduces_simplify u x).tokens

theorem defined_simplify : Token.defined (x.simplify u).tokens = Token.defined x.tokens :=
  (thins_simplify u x).defined_eq

theorem keys_simplify : (x.simplify u).keys.Sublist x.keys :=
  (reduces_simplify u x).keys

end

theorem Below.simplify {n : Nat} (h : x.Below n) (u : OperandKey → Bool) : (x.simplify u).Below n :=
  (reduces_simplify u x).below h

/-! ## Values -/

/-- Counting that is left stands around counted values only, and every operand that the tree enters
is as uncounted as its key says. -/
structure Tidy (u : OperandKey → Bool) (x : Tree) : Prop where
  agrees : Agrees u x
  settles : Settles u x
  value : uncountedStep u x.head = uncountableStep u x.head

theorem uncountedStep_eq_false {e : Expr} (h : uncountableStep u e = false) : uncountedStep u e = false := by
  cases he : uncountedStep u e with
  | false => rfl
  | true => rw [uncountable_of_uncounted he] at h; exact absurd h (by decide)

theorem Tidy.of_incr (h : Tidy u (.unary .incr x)) : Tidy u x := by
  refine ⟨agrees_unary.1 h.agrees, ?_, ?_⟩
  · intro key y hy
    exact h.settles key y (by rwa [bindings])
  · have hv := h.value
    simp only [head, uncountedStep, uncountableStep] at hv
    rw [← hv, uncountedStep_eq_false hv.symm]

theorem Tidy.of_inlined (h : Tidy u (.inlined key x)) : Tidy u x := by
  obtain ⟨hv, ha⟩ := Enters.inlined.agrees_iff.1 h.agrees
  obtain ⟨hv', hs⟩ := Enters.inlined.binds_iff.1 h.settles
  exact ⟨ha, hs, hv'.trans hv.symm⟩

/-- A mention of an operand that holds a tidy tree. -/
theorem Tidy.enters (h : Tidy u x) (hy : Enters key x y) (hkey : uncountableStep u x.head = u key) : Tidy u y := by
  refine ⟨hy.agrees_iff.2 ⟨hkey, h.agrees⟩, hy.binds_iff.2 ⟨h.value.trans hkey, h.settles⟩, ?_⟩
  cases hy with
  | definition noIncr => rw [head]; rfl
  | inlined => rw [head]; rfl

/-- An operator over a tidy tree, or what it gives way to. -/
theorem tidy_collapse (op : UnaryOp) (h : Tidy u x) : Tidy u ((collapse u op x).getD (.unary op x)) := by
  cases hc : collapse u op x with
  | some y =>
    rw [Option.getD_some]
    exact collapse_induct hc h (fun _ => Tidy.of_incr) fun _ _ => Tidy.of_inlined
  | none =>
    rw [Option.getD_none]
    refine ⟨agrees_unary.2 h.agrees, fun key y hy => h.settles key y (by rwa [bindings] at hy), ?_⟩
    rw [head]
    cases op with
    | incr =>
      simp only [collapse, ite_eq_right_iff, reduceCtorEq, imp_false, Bool.not_eq_true] at hc
      simp only [uncountedStep, uncountableStep, ← h.value, hc]
    | decr =>
      have hv : uncountedStep u x.head = false := by
        cases hv : uncountedStep u x.head with
        | false => rfl
        | true => simp only [collapse, hv, if_true, reduceCtorEq] at hc
      simp only [uncountedStep, uncountableStep, ← h.value, hv]
    | _ => simp only [uncountedStep, uncountableStep]

theorem tidy_many {op : ManyOp} (h : ∀ x ∈ args, Tidy u x) : Tidy u (.many op args) := by
  have hover := Alike.many op args args rfl
  refine ⟨hover.agrees_iff.2 fun x hx => (h x hx).agrees, hover.binds_iff.2 fun x hx => (h x hx).settles, ?_⟩
  rw [head]
  cases op with
  | sequence =>
    simp only [uncountedStep, uncountableStep, uncountedLast_eq, uncountableLast_eq, getLast?_map]
    cases hlast : args.getLast? with
    | none => rfl
    | some x =>
      simp only [Option.map_some, Option.getD_some]
      exact (h x (mem_of_getLast? hlast)).value
  | _ => simp only [uncountedStep, uncountableStep]

theorem tidy_collapseMany {op : ManyOp} (h : ∀ x ∈ args, Tidy u x) : Tidy u (collapseMany op args) := by
  rcases collapseMany_cases op args with hop | ⟨_, hop⟩
  · rw [hop]
    exact tidy_many h
  · rw [hop]
    exact tidy_many fun x hx => h x ((dropItems_sublist args).subset hx)

/-- Simplification keeps the value and leaves a tidy tree. -/
theorem tidy_simplify (h : Agrees u x) : uncountableStep u (x.simplify u).head = uncountableStep u x.head ∧
      Tidy u (x.simplify u) := by
  refine ⟨((reduces_simplify u x).agrees h).1, ?_⟩
  induction x using inductInlined with
  | leaf l =>
    rw [simplify]
    refine ⟨h, binds_of_keys_eq_nil (keys_leaf l), ?_⟩
    rw [head]
    cases l <;> rfl
  | unary op x ih => rw [simplify]; exact tidy_collapse op (ih (agrees_unary.1 h))
  | store target value iht ihv =>
    have hargs := (Alike.store target value target value).agrees_iff.1 h
    rw [forall_mem_cons, forall_mem_singleton] at hargs
    have hover := Alike.store (target.simplify u) (value.simplify u) (target.simplify u) (value.simplify u)
    rw [simplify]
    refine ⟨hover.agrees_iff.2 ?_, hover.binds_iff.2 ?_, by simp only [head, uncountedStep, uncountableStep]⟩
    · exact forall_mem_cons.2 ⟨(iht hargs.1).agrees, forall_mem_singleton.2 (ihv hargs.2).agrees⟩
    · exact forall_mem_cons.2 ⟨(iht hargs.1).settles, forall_mem_singleton.2 (ihv hargs.2).settles⟩
  | many op args ih =>
    have hargs := (Alike.many op args args rfl).agrees_iff.1 h
    rw [simplify]
    exact tidy_collapseMany (forall_mem_map.2 fun x hx => ih x hx (hargs x hx))
  | reference key noIncr =>
    rw [simplify]
    refine ⟨h, binds_of_keys_eq_nil (keys_reference key noIncr), ?_⟩
    rw [head]
    rfl
  | definition key noIncr x ih =>
    obtain ⟨hv, hx⟩ := (Enters.definition noIncr).agrees_iff.1 h
    rw [simplify]
    exact (ih hx).enters (.definition noIncr) ((((reduces_simplify u x).agrees hx).1).trans hv)
  | inlinedUnary key op x ih =>
    obtain ⟨hv, hx⟩ := Enters.inlined.agrees_iff.1 h
    have htidy := tidy_collapse op (ih (agrees_unary.1 hx))
    have hop := (Reduces.alike rowRelation_thins (.cons (reduces_simplify u x) .nil)
      (.unary op x (x.simplify u))).agrees hx
    rw [simplify]
    cases hc : collapse u op (x.simplify u) with
    | some y => rw [hc] at htidy; exact htidy
    | none => rw [hc] at htidy; exact htidy.enters .inlined (hop.1.trans hv)
  | inlined key x hne ih =>
    obtain ⟨hv, hx⟩ := Enters.inlined.agrees_iff.1 h
    rw [simplify_inlined hne]
    exact (ih hx).enters .inlined ((((reduces_simplify u x).agrees hx).1).trans hv)

/-! ## Normal trees -/

/-- An item that is not the last is no longer one that may be dropped. -/
theorem isPure_dropItems (xs : List Tree) : ∀ x ∈ (dropItems xs).dropLast, x.head.isPure = false := by
  induction xs with
  | nil => exact fun _ hx => absurd hx not_mem_nil
  | cons x rest ih =>
    cases rest with
    | nil => exact fun _ hx => absurd hx not_mem_nil
    | cons y rest =>
      rw [dropItems]
      · split
        · exact ih
        · cases hdrop : dropItems (y :: rest) with
          | nil => exact fun _ hz => absurd hz not_mem_nil
          | cons z zs =>
            rw [hdrop] at ih
            rw [dropLast_cons_cons, forall_mem_cons]
            exact ⟨eq_false_of_ne_true ‹_›, ih⟩
      · exact cons_ne_nil y rest

/-- What is left of a row of operands: none that may be dropped in front of another one. -/
theorem exists_collapseMany (op : ManyOp) (xs : List Tree) :
    ∃ ys, collapseMany op xs = .many op ys ∧ (∀ y ∈ ys, y ∈ xs) ∧
      (op = .sequence → ∀ y ∈ ys.dropLast, y.head.isPure = false) := by
  cases op with
  | sequence => exact ⟨_, rfl, fun y hy => (dropItems_sublist _).subset hy, fun _ => isPure_dropItems xs⟩
  | _ => exact ⟨_, rfl, fun _ h => h, fun h => nomatch h⟩

/-- Nothing in the tree gives way: no operator does over what stands below it, and no item of a
sequence that may be dropped stands in front of the last one. -/
@[simp] def Normal (u : OperandKey → Bool) : Tree → Prop
  | .leaf _ => True
  | .unary op x => x.Normal u ∧ collapse u op x = none
  | .store target value => target.Normal u ∧ value.Normal u
  | .many op args => (∀ x ∈ args, x.Normal u) ∧
      (op = .sequence → ∀ x ∈ args.dropLast, x.head.isPure = false)
  | .reference _ _ => True
  | .definition _ _ x => x.Normal u
  | .inlined _ x => x.Normal u

theorem Normal.collapse (op : UnaryOp) (h : x.Normal u) : ((Tree.collapse u op x).getD (.unary op x)).Normal u := by
  cases hc : Tree.collapse u op x with
  | none => rw [Option.getD_none, Normal]; exact ⟨h, hc⟩
  | some y =>
    refine collapse_induct hc h ?_ ?_
    · intro z hz; rw [Normal] at hz; exact hz.1
    · intro k z hz; rwa [Normal] at hz

/-- One pass is enough: what it leaves is normal. -/
theorem normal_simplify (u : OperandKey → Bool) (x : Tree) : (x.simplify u).Normal u := by
  induction x using inductInlined with
  | leaf l => simp only [simplify, Normal]
  | unary op x ih => rw [simplify]; exact ih.collapse op
  | store target value iht ihv => rw [simplify, Normal]; exact ⟨iht, ihv⟩
  | many op args ih =>
    obtain ⟨ys, hys, hsub, hitems⟩ := exists_collapseMany op (args.map (simplify u))
    rw [simplify, hys, Normal]
    refine ⟨fun y hy => ?_, hitems⟩
    obtain ⟨x, hx, rfl⟩ := mem_map.1 (hsub y hy)
    exact ih x hx
  | reference k noIncr => simp only [simplify, Normal]
  | definition k noIncr x ih => rwa [simplify, Normal]
  | inlinedUnary k op x ih =>
    have hcol := ih.collapse op
    rw [simplify]
    cases hc : collapse u op (x.simplify u) with
    | none => rw [hc, Option.getD_none] at hcol; rw [Option.getD_none, Normal]; exact hcol
    | some y => rw [hc] at hcol; exact hcol
  | inlined k x hne ih => rwa [simplify_inlined hne, Normal]

end Tree
end Firmware
