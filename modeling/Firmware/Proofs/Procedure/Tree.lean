import Firmware.Procedure.Resolve

/-!
# Trees of expressions

An expression only mentions its shared operands; what they hold stands in the table. A `Tree` is an
expression with every operand that it enters in place, so that what a pass does to an expression
and to the table at once is a function on one tree.

The two are tied by `Tree.Stored`: the table holds, under each key that the tree enters, the
expression of the tree that stands there. The keys that a tree enters are pairwise different in
everything that resolving builds, and that is what makes the passes local: work inside one tree
leaves the others as they are (`Stored.frame`).

Operands are made before they are mentioned, so keys go down along every path into a tree
(`Tree.Below`). A depth that is at least the bound on the keys reaches everything: that is why the
traversals, which go as deep as the table is long, see the whole tree (`walkTo_head`).
-/

namespace Firmware

open List Expr

/-! ## Entries of a table -/

namespace Operands

variable {t : Operands} {key : OperandKey}

/-- The operand with a key; the default one where the table has none. -/
def entry (t : Operands) (key : OperandKey) : Operand := t[key]?.getD default

theorem value_eq_entry (h : key < t.length) : t.value key = (t.entry key).value := by
  simp only [value, entry, getElem?_eq_getElem h, Option.getD_some]

theorem entry_modify_self (h : key < t.length) (f : Operand → Operand) :
    entry (List.modify t key f) key = f (t.entry key) := by
  simp only [entry, getElem?_modify, getElem?_eq_getElem h, if_true, Option.map_some,
    Option.getD_some, Option.map_eq_map]

theorem entry_modify_ne {j : OperandKey} (h : j ≠ key) (f : Operand → Operand) :
    entry (List.modify t key f) j = t.entry j := by
  simp only [entry, getElem?_modify, if_neg (Ne.symm h), Option.map_eq_map, Option.map_id']

end Operands

/-! ## Trees -/

/-- An expression with the operands that it enters in place. -/
inductive Tree where
  | leaf (l : Leaf)
  | unary (op : UnaryOp) (x : Tree)
  | store (target value : Tree)
  | many (op : ManyOp) (args : List Tree)
  | reference (key : OperandKey) (noIncr : Bool)
  /-- The definition of an operand, with what it holds. -/
  | definition (key : OperandKey) (noIncr : Bool) (x : Tree)
  /-- What an operand holds, in place of its definition. -/
  | inlined (key : OperandKey) (x : Tree)

namespace Tree

variable {x : Tree} {t : Operands} {key : OperandKey} {n : Nat}

/-- The expression of a tree. -/
@[simp] def head : Tree → Expr
  | .leaf l => .leaf l
  | .unary op x => .unary op x.head
  | .store target value => .store target.head value.head
  | .many op args => .many op (args.map head)
  | .reference key noIncr => .reference key noIncr
  | .definition key noIncr _ => .definition key noIncr
  | .inlined key _ => .inlined key

@[simp] theorem head_unary (op : UnaryOp) (x : Tree) : (unary op x).head = .unary op x.head := by
  rw [head]

@[simp] theorem head_inlined (key : OperandKey) (x : Tree) : (inlined key x).head = .inlined key := by
  rw [head]

/-- The operands that the tree enters, each before those inside of it. -/
@[simp] def bindings : Tree → List (OperandKey × Tree)
  | .leaf _ => []
  | .unary _ x => x.bindings
  | .store target value => target.bindings ++ value.bindings
  | .many _ args => args.flatMap bindings
  | .reference _ _ => []
  | .definition key _ x => (key, x) :: x.bindings
  | .inlined key x => (key, x) :: x.bindings

/-- The keys of the operands that the tree enters. -/
def keys (x : Tree) : List OperandKey := x.bindings.map (·.1)

/-- The nodes of a tree, each before its operands, as a walk of its expression meets them. -/
@[simp] def walk : Tree → List Expr
  | .leaf l => [.leaf l]
  | .unary op x => .unary op x.head :: x.walk
  | .store target value =>
    .store target.head value.head :: (target.walk ++ value.walk)
  | .many op args => .many op (args.map head) :: args.flatMap walk
  | .reference key noIncr => [.reference key noIncr]
  | .definition key noIncr x => .definition key noIncr :: x.walk
  | .inlined _ x => x.walk

/-- The keys that a tree mentions are below `n`, and those inside of an operand below its own. -/
@[simp] def Below (n : Nat) : Tree → Prop
  | .leaf _ => True
  | .unary _ x => x.Below n
  | .store target value => target.Below n ∧ value.Below n
  | .many _ args => ∀ x ∈ args, x.Below n
  | .reference key _ => key < n
  | .definition key _ x => key < n ∧ x.Below key
  | .inlined key x => key < n ∧ x.Below key

/-- The induction that goes into operands as into any other part of a tree. -/
@[elab_as_elim, induction_eliminator]
theorem induct {motive : Tree → Prop} (leaf : ∀ l, motive (.leaf l))
    (unary : ∀ op x, motive x → motive (.unary op x))
    (store : ∀ target value, motive target → motive value → motive (.store target value))
    (many : ∀ op args, (∀ x ∈ args, motive x) → motive (.many op args))
    (reference : ∀ key noIncr, motive (.reference key noIncr))
    (definition : ∀ key noIncr x, motive x → motive (.definition key noIncr x))
    (inlined : ∀ key x, motive x → motive (.inlined key x)) (x : Tree) : motive x :=
  bindings.induct motive leaf unary store many reference definition inlined x

/-! ### Nodes over their operands -/

/-- Two nodes of one kind, the one over the trees `xs` and the other over `ys`. Mentions of shared
operands are none of them. -/
inductive Alike : List Tree → List Tree → Tree → Tree → Prop
  | leaf (l : Leaf) : Alike [] [] (.leaf l) (.leaf l)
  | unary (op : UnaryOp) (x y : Tree) : Alike [x] [y] (.unary op x) (.unary op y)
  | store (x y x' y' : Tree) : Alike [x, y] [x', y'] (.store x y) (.store x' y')
  | many (op : ManyOp) (xs ys : List Tree) (h : ys.length = xs.length) : Alike xs ys (.many op xs) (.many op ys)

/-- The tree is a node over the trees `xs`. -/
abbrev Over (xs : List Tree) (x : Tree) : Prop := Alike xs xs x x

/-- The tree enters an operand, which holds `x`, at its root. -/
inductive Enters (key : OperandKey) (x : Tree) : Tree → Prop
  | definition (noIncr : Bool) : Enters key x (.definition key noIncr x)
  | inlined : Enters key x (.inlined key x)

variable {xs ys : List Tree} {y : Tree}

theorem Alike.left (h : Alike xs ys x y) : Over xs x := by
  cases h with
  | leaf l => exact .leaf l
  | unary op x y => exact .unary op x x
  | store x y x' y' => exact .store x y x y
  | many op xs ys _ => exact .many op xs xs rfl

theorem Alike.right (h : Alike xs ys x y) : Over ys y := by
  cases h with
  | leaf l => exact .leaf l
  | unary op x y => exact .unary op y y
  | store x y x' y' => exact .store x' y' x' y'
  | many op xs ys _ => exact .many op ys ys rfl

/-- The induction that takes all nodes alike, and all mentions that enter an operand. -/
@[elab_as_elim]
theorem inductOver {motive : Tree → Prop} (above : ∀ xs x, Over xs x → (∀ y ∈ xs, motive y) → motive x)
    (reference : ∀ key noIncr, motive (.reference key noIncr))
    (enters : ∀ key x y, Enters key x y → motive x → motive y) (x : Tree) : motive x := by
  induction x with
  | leaf l => exact above [] _ (.leaf l) fun _ h => absurd h not_mem_nil
  | unary op x ih => exact above [x] _ (.unary op x x) (forall_mem_singleton.2 ih)
  | store target value iht ihv =>
    exact above [target, value] _ (.store target value target value) (forall_mem_cons.2 ⟨iht, forall_mem_singleton.2 ihv⟩)
  | many op args ih => exact above args _ (.many op args args rfl) ih
  | reference key noIncr => exact reference key noIncr
  | definition key noIncr x ih => exact enters key x _ (.definition noIncr) ih
  | inlined key x ih => exact enters key x _ .inlined ih

theorem Alike.bindings_eq (h : Over xs x) : x.bindings = xs.flatMap bindings := by
  cases h with
  | leaf l => rw [bindings]; rfl
  | unary op x => rw [bindings, flatMap_singleton]
  | store x y => rw [bindings, flatMap_cons, flatMap_singleton]
  | many op xs => rw [bindings]

theorem Alike.keys_eq (h : Over xs x) : x.keys = xs.flatMap keys := by
  rw [keys, h.bindings_eq, map_flatMap]
  rfl

theorem Alike.below_iff (h : Over xs x) : x.Below n ↔ ∀ y ∈ xs, y.Below n := by
  cases h with
  | leaf l => rw [Below]; exact ⟨fun _ _ h => absurd h not_mem_nil, fun _ => trivial⟩
  | unary op x => rw [Below, forall_mem_singleton]
  | store x y => rw [Below, forall_mem_cons, forall_mem_singleton]
  | many op xs => rw [Below]

theorem Alike.walk_eq (h : Over xs x) : x.walk = x.head :: xs.flatMap walk := by
  cases h with
  | leaf l => rw [walk, head]; rfl
  | unary op x => rw [walk, head, flatMap_singleton]
  | store x y => rw [walk, head, flatMap_cons, flatMap_singleton]
  | many op xs => rw [walk, head]

theorem Enters.bindings_eq (h : Enters key x y) : y.bindings = (key, x) :: x.bindings := by
  cases h with
  | definition noIncr => rw [bindings]
  | inlined => rw [bindings]

theorem Enters.keys_eq (h : Enters key x y) : y.keys = key :: x.keys := by
  rw [keys, h.bindings_eq, map_cons, keys]

theorem Enters.below_iff (h : Enters key x y) : y.Below n ↔ key < n ∧ x.Below key := by
  cases h with
  | definition noIncr => rw [Below]
  | inlined => rw [Below]

/-! ### Bounds -/

theorem Below.mono {m : Nat} (h : x.Below n) (hnm : n ≤ m) : x.Below m := by
  induction x using inductOver with
  | above xs x hx ih => exact hx.below_iff.2 fun y hy => ih y hy (hx.below_iff.1 h y hy)
  | reference key noIncr => rw [Below] at h ⊢; exact Nat.lt_of_lt_of_le h hnm
  | enters key x y hy ih =>
    obtain ⟨hk, hx⟩ := hy.below_iff.1 h
    exact hy.below_iff.2 ⟨Nat.lt_of_lt_of_le hk hnm, hx⟩

/-- What an operand holds that the tree enters is below its key, which is below the bound. -/
theorem Below.of_binding (h : x.Below n) (hy : (key, y) ∈ x.bindings) : key < n ∧ y.Below key := by
  induction x using inductOver generalizing n with
  | above xs x hx ih =>
    rw [hx.bindings_eq, mem_flatMap] at hy
    obtain ⟨z, hz, hy⟩ := hy
    exact ih z hz (hx.below_iff.1 h z hz) hy
  | reference k noIncr => rw [bindings] at hy; exact absurd hy not_mem_nil
  | enters k x z hz ih =>
    obtain ⟨hk, hx⟩ := hz.below_iff.1 h
    rw [hz.bindings_eq, mem_cons, Prod.mk.injEq] at hy
    rcases hy with ⟨rfl, rfl⟩ | hy
    · exact ⟨hk, hx⟩
    · exact ⟨Nat.lt_trans (ih hx hy).1 hk, (ih hx hy).2⟩

theorem Below.lt_of_mem_keys (h : x.Below n) (hk : key ∈ x.keys) : key < n := by
  obtain ⟨⟨k, y⟩, hy, rfl⟩ := mem_map.1 hk
  exact (h.of_binding hy).1

/-! ### The keys of a tree by its shape -/

@[simp] theorem keys_leaf (l : Leaf) : (leaf l).keys = [] := (Alike.leaf l).keys_eq

@[simp] theorem keys_reference (key : OperandKey) (noIncr : Bool) :
    (reference key noIncr).keys = [] := by simp only [keys, bindings, map_nil]

@[simp] theorem keys_unary (op : UnaryOp) (x : Tree) : (unary op x).keys = x.keys := by
  simp only [keys, bindings]

@[simp] theorem keys_many (op : ManyOp) (args : List Tree) : (many op args).keys = args.flatMap keys :=
  (Alike.many op args args rfl).keys_eq

@[simp] theorem keys_definition (key : OperandKey) (noIncr : Bool) (x : Tree) :
    (definition key noIncr x).keys = key :: x.keys := (Enters.definition noIncr).keys_eq

@[simp] theorem keys_inlined (key : OperandKey) (x : Tree) : (inlined key x).keys = key :: x.keys :=
  Enters.inlined.keys_eq

/-! ## Trees in a table -/

/-- Something holds of every operand that the tree enters. -/
def Binds (P : OperandKey → Tree → Prop) (x : Tree) : Prop := ∀ key y, (key, y) ∈ x.bindings → P key y

section

variable {P : OperandKey → Tree → Prop}

theorem Alike.binds_iff (h : Over xs x) : Binds P x ↔ ∀ y ∈ xs, Binds P y := by
  simp only [Binds, h.bindings_eq, mem_flatMap]
  constructor
  · exact fun h x hx k y hy => h k y ⟨x, hx, hy⟩
  · rintro h k y ⟨x, hx, hy⟩
    exact h x hx k y hy

theorem Enters.binds_iff (h : Enters key x y) : Binds P y ↔ P key x ∧ Binds P x := by
  simp only [Binds, h.bindings_eq, mem_cons, Prod.mk.injEq]
  constructor
  · exact fun h => ⟨h key x (.inl ⟨rfl, rfl⟩), fun k z hz => h k z (.inr hz)⟩
  · rintro ⟨hv, hx⟩ k z (⟨rfl, rfl⟩ | hz)
    · exact hv
    · exact hx k z hz

theorem binds_of_keys_eq_nil (h : x.keys = []) : Binds P x := by
  intro key y hy
  have hmem : key ∈ x.keys := mem_map_of_mem hy
  rw [h] at hmem
  exact absurd hmem not_mem_nil

end

/-- The table holds what stands in the tree under each key that the tree enters. -/
def Stored (t : Operands) (x : Tree) : Prop :=
  ∀ key y, (key, y) ∈ x.bindings → key < t.length ∧ t.value key = y.head

theorem Alike.stored_iff (h : Over xs x) : Stored t x ↔ ∀ y ∈ xs, Stored t y := h.binds_iff

theorem Enters.stored_iff (h : Enters key x y) : Stored t y ↔ key < t.length ∧ t.value key = x.head ∧ Stored t x :=
  Iff.trans h.binds_iff and_assoc

theorem stored_unary {op : UnaryOp} : Stored t (.unary op x) ↔ Stored t x := by
  simp only [Stored, bindings]

theorem stored_of_keys_eq_nil (h : x.keys = []) : Stored t x := binds_of_keys_eq_nil h

/-- A tree stays in the table while the operands that it enters keep what they hold. -/
theorem Stored.frame {t' : Operands} (h : Stored t x) (hlen : t'.length = t.length)
    (hval : ∀ key ∈ x.keys, t'.value key = t.value key) : Stored t' x := by
  intro key y hy
  obtain ⟨hlt, hv⟩ := h key y hy
  refine ⟨by rw [hlen]; exact hlt, ?_⟩
  rw [hval key (mem_map_of_mem hy), hv]

theorem Stored.lt_length (h : Stored t x) (hk : key ∈ x.keys) : key < t.length := by
  obtain ⟨⟨k, y⟩, hy, rfl⟩ := mem_map.1 hk
  exact (h k y hy).1

/-! ## Walks -/

theorem walkSteps_map {enter : OperandKey → List Expr} (h : ∀ x ∈ xs, walkStep enter x.head = x.walk) :
    walkSteps enter (xs.map head) = xs.flatMap walk := by
  induction xs with
  | nil => simp only [map_nil, walkSteps, flatMap_nil]
  | cons x rest ih =>
    rw [map_cons, walkSteps, h x mem_cons_self, ih (fun y hy => h y (mem_cons_of_mem _ hy)), flatMap_cons]

theorem Alike.walkStep_eq {enter : OperandKey → List Expr} (h : Over xs x) :
    walkStep enter x.head = x.head :: walkSteps enter (xs.map head) := by
  cases h with
  | leaf l => rw [head]; rfl
  | many op xs => rw [head, walkStep]
  | _ => simp only [head, walkStep, map_cons, map_nil, walkSteps, append_nil]

/-- What a walk of the given depth meets inside of an operand. -/
def walkInto (t : Operands) : Nat → OperandKey → List Expr
  | 0, _ => []
  | depth + 1, key => walkTo t depth (t.value key)

theorem walkTo_eq (t : Operands) (depth : Nat) (e : Expr) : walkTo t depth e = walkStep (walkInto t depth) e := by
  cases depth with
  | zero => rfl
  | succ depth => rfl

/-- A walk that goes deep enough meets the nodes of the tree. -/
theorem walkTo_head (hx : Stored t x) {depth : Nat} (hb : x.Below n) (hd : n ≤ depth) :
    walkTo t depth x.head = x.walk := by
  rw [walkTo_eq]
  induction x using inductOver generalizing n depth with
  | above xs x hover ih =>
    rw [hover.walkStep_eq, hover.walk_eq, walkSteps_map]
    exact fun y hy => ih y hy (hover.stored_iff.1 hx y hy) (hover.below_iff.1 hb y hy) hd
  | reference key noIncr => simp only [head, walk, walkStep]
  | enters key x y hy ih =>
    obtain ⟨hk, hbx⟩ := hy.below_iff.1 hb
    obtain ⟨_, hv, hsx⟩ := hy.stored_iff.1 hx
    obtain ⟨d, rfl⟩ := Nat.exists_eq_add_of_lt (Nat.lt_of_lt_of_le hk hd)
    have hinto : walkInto t (key + d + 1) key = x.walk := by
      rw [walkInto, hv, walkTo_eq, ih hsx hbx (Nat.le_add_right _ _)]
    cases hy with
    | definition noIncr => rw [head, walk, walkStep, hinto]
    | inlined => rw [head, walk, walkStep, hinto]

end Tree
end Firmware
