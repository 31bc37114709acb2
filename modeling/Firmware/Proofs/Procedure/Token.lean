import Firmware.Proofs.Procedure.State

/-!
# What a walk meets

A walk over a body is read here as a row of tokens: the effects of its nodes, and the definitions
and references of operands, each at its place in evaluation order. Counting a reference up or down
leaves no token, and neither does a literal or the read of a cell.

Resolving is described by what it does to this row. Simplification only takes references out
(`Thins`), counting and retaining only take out definitions that nothing refers to. The order of
what is left never changes, and no effect is ever among what is taken out.
-/

namespace Firmware

open List Option

/-! ## Effects -/

/-- What a node does besides reading shared operands and counting references. -/
inductive Effect where
  | runtimeCall (name : String) (convention : Convention) (mask : Option UInt32) (args : Nat)
  | procedureCall (callee : Callee) (args : Nat)
  | store
  | field (name : String) (index : Int)
  | instanceOf (className : String)
  | jumpValue
  | nop
  | sequence
deriving DecidableEq, Repr

/-- The effect of a leaf. Literals and cells have none. -/
def Leaf.effect? : Leaf → Option Effect
  | .jumpValue => some .jumpValue
  | .nop => some .nop
  | _ => none

/-- The effect of an operator with one operand. Counting has none. -/
def UnaryOp.effect? : UnaryOp → Option Effect
  | .field name index => some (.field name index)
  | .instanceOf className => some (.instanceOf className)
  | _ => none

/-- The effect of an operator with a number of operands. -/
def ManyOp.effect (args : Nat) : ManyOp → Effect
  | .runtimeCall name convention mask => .runtimeCall name convention mask args
  | .procedureCall callee => .procedureCall callee args
  | .sequence => .sequence

/-- The effect of a node. -/
def Expr.effect? : Expr → Option Effect
  | .leaf l => l.effect?
  | .unary op _ => op.effect?
  | .store _ _ => some .store
  | .many op args => some (op.effect args.length)
  | _ => none

/-! ## Tokens -/

/-- What a walk meets at a node. -/
inductive Token where
  | effect (e : Effect)
  | define (key : OperandKey)
  | refer (key : OperandKey)
deriving DecidableEq, Repr

/-- The token of a node, if it has one. -/
def Expr.token? : Expr → Option Token
  | .definition key _ => some (.define key)
  | .reference key _ => some (.refer key)
  | e => e.effect?.map .effect

namespace Token

variable {ts : List Token} {j key : OperandKey} {ks : List OperandKey}

/-- The effect that a token stands for. -/
def effect? : Token → Option Effect
  | .effect e => some e
  | _ => none

/-- The operand that a token defines. -/
def defined? : Token → Option OperandKey
  | .define key => some key
  | _ => none

/-- The effects in a row of tokens. -/
def effects (ts : List Token) : List Effect := ts.filterMap effect?

/-- The operands defined in a row of tokens. -/
def defined (ts : List Token) : List OperandKey := ts.filterMap defined?

/-- The number of references to an operand. -/
def references (ts : List Token) (key : OperandKey) : Nat := ts.count (.refer key)

/-- The number of uses of an operand, its definition included. -/
def uses (ts : List Token) (key : OperandKey) : Nat :=
  ts.count (.define key) + references ts key

/-- Every reference follows a definition of its operand, or names an operand in `known`. -/
@[simp] def Dominated (known : List OperandKey) : List Token → Prop
  | [] => True
  | .effect _ :: rest => Dominated known rest
  | .define key :: rest => Dominated (key :: known) rest
  | .refer key :: rest => key ∈ known ∧ Dominated known rest

/-! ### Rows in a row -/

@[simp] theorem defined_append (ts us : List Token) : defined (ts ++ us) = defined ts ++ defined us := filterMap_append

@[simp] theorem references_append (ts us : List Token) (key : OperandKey) :
    references (ts ++ us) key = references ts key + references us key :=
  count_append

@[simp] theorem uses_append (ts us : List Token) (key : OperandKey) :
    uses (ts ++ us) key = uses ts key + uses us key := by
  simp only [uses, count_append, references_append]
  omega

@[simp] theorem references_nil (key : OperandKey) : references [] key = 0 := rfl

@[simp] theorem references_effect (e : Effect) (ts : List Token) (key : OperandKey) :
    references (.effect e :: ts) key = references ts key := by
  simp only [references, count_cons, beq_iff_eq, reduceCtorEq, if_false, Nat.add_zero]

@[simp] theorem references_define (k : OperandKey) (ts : List Token) (key : OperandKey) :
    references (.define k :: ts) key = references ts key := by
  simp only [references, count_cons, beq_iff_eq, reduceCtorEq, if_false, Nat.add_zero]

@[simp] theorem references_refer_self (key : OperandKey) (ts : List Token) :
    references (.refer key :: ts) key = references ts key + 1 := by
  simp only [references, count_cons, beq_iff_eq, if_true]

@[simp] theorem references_refer_ne (h : j ≠ key) (ts : List Token) :
    references (.refer key :: ts) j = references ts j := by
  simp only [references, count_cons, beq_iff_eq, refer.injEq, Ne.symm h, if_false, Nat.add_zero]

@[simp] theorem uses_nil (key : OperandKey) : uses [] key = 0 := rfl

@[simp] theorem uses_effect (e : Effect) (ts : List Token) (key : OperandKey) :
    uses (.effect e :: ts) key = uses ts key := by
  simp only [uses, references, count_cons, beq_iff_eq, reduceCtorEq, if_false, Nat.add_zero]

@[simp] theorem uses_define_self (key : OperandKey) (ts : List Token) :
    uses (.define key :: ts) key = uses ts key + 1 := by
  simp only [uses, references, count_cons, beq_iff_eq, reduceCtorEq, if_false, if_true]
  omega

@[simp] theorem uses_define_ne (h : j ≠ key) (ts : List Token) : uses (.define key :: ts) j = uses ts j := by
  simp only [uses, references, count_cons, beq_iff_eq, define.injEq, Ne.symm h, reduceCtorEq, if_false, Nat.add_zero]

@[simp] theorem uses_refer_self (key : OperandKey) (ts : List Token) :
    uses (.refer key :: ts) key = uses ts key + 1 := by
  simp only [uses, references, count_cons, beq_iff_eq, reduceCtorEq, if_false, if_true]
  omega

@[simp] theorem uses_refer_ne (h : j ≠ key) (ts : List Token) : uses (.refer key :: ts) j = uses ts j := by
  simp only [uses, references, count_cons, beq_iff_eq, refer.injEq, Ne.symm h, reduceCtorEq, if_false, Nat.add_zero]

@[simp] theorem defined_nil : defined [] = [] := rfl

@[simp] theorem defined_define (key : OperandKey) (ts : List Token) :
    defined (.define key :: ts) = key :: defined ts := rfl

@[simp] theorem defined_effect (e : Effect) (ts : List Token) : defined (.effect e :: ts) = defined ts := rfl

@[simp] theorem defined_refer (key : OperandKey) (ts : List Token) : defined (.refer key :: ts) = defined ts := rfl

theorem mem_defined : key ∈ defined ts ↔ .define key ∈ ts := by
  simp only [defined, mem_filterMap]
  constructor
  · rintro ⟨t, ht, hd⟩
    cases t with
    | define k => simp only [defined?, Option.some.injEq] at hd; rwa [hd] at ht
    | effect e => simp only [defined?, reduceCtorEq] at hd
    | refer k => simp only [defined?, reduceCtorEq] at hd
  · exact fun h => ⟨.define key, h, rfl⟩

theorem count_define (ts : List Token) (key : OperandKey) : ts.count (.define key) = (defined ts).count key := by
  induction ts with
  | nil => rfl
  | cons t rest ih =>
    cases t with
    | define k =>
      rw [defined_define, count_cons, count_cons, ih]
      simp only [beq_iff_eq, define.injEq]
    | effect e => rw [defined_effect, count_cons, ih]; simp
    | refer k => rw [defined_refer, count_cons, ih]; simp

theorem references_pos_iff : 0 < references ts key ↔ .refer key ∈ ts := count_pos_iff

/-! ### Domination -/

/-- Only the operands that are referred to have to be known. -/
theorem Dominated.of_mem {ls : List OperandKey} (h : Dominated ks ts)
    (hsub : ∀ key ∈ ks, .refer key ∈ ts → key ∈ ls) : Dominated ls ts := by
  induction ts generalizing ks ls with
  | nil => trivial
  | cons t rest ih =>
    cases t with
    | effect e => exact ih h fun key hk hr => hsub key hk (mem_cons_of_mem _ hr)
    | refer k =>
      exact ⟨hsub k h.1 mem_cons_self, ih h.2 fun key hk hr => hsub key hk (mem_cons_of_mem _ hr)⟩
    | define k =>
      rw [Dominated] at h ⊢
      refine ih h ?_
      intro key hk hr
      rcases mem_cons.1 hk with rfl | hk
      · exact mem_cons_self
      · exact mem_cons_of_mem _ (hsub key hk (mem_cons_of_mem _ hr))

theorem Dominated.mono {ls : List OperandKey} (h : Dominated ks ts) (hsub : ∀ key ∈ ks, key ∈ ls) : Dominated ls ts :=
  h.of_mem fun key hk _ => hsub key hk

theorem dominated_append {us : List Token} :
    Dominated ks (ts ++ us) ↔ Dominated ks ts ∧ Dominated (ks ++ defined ts) us := by
  induction ts generalizing ks with
  | nil => simp only [nil_append, Dominated, defined_nil, append_nil, true_and]
  | cons t rest ih =>
    cases t with
    | effect e => simpa only [cons_append, Dominated, defined_effect] using ih
    | refer k =>
      simp only [cons_append, Dominated, defined_refer, and_assoc, ih]
    | define k =>
      simp only [cons_append, Dominated, defined_define, ih]
      -- the two rows of known operands differ in the place of `k` only
      have hperm : ∀ key, key ∈ k :: (ks ++ defined rest) ↔ key ∈ ks ++ k :: defined rest := by
        intro key
        simp only [mem_cons, mem_append, or_left_comm]
      exact and_congr_right fun _ =>
        ⟨fun h => h.mono fun key => (hperm key).1, fun h => h.mono fun key => (hperm key).2⟩

/-- A reference in a dominated row names a known operand or one that the row defines. -/
theorem Dominated.mem (h : Dominated ks ts) (hk : .refer key ∈ ts) : key ∈ ks ∨ key ∈ defined ts := by
  obtain ⟨before, after, rfl⟩ := append_of_mem hk
  have hmem := (dominated_append.1 h).2.1
  rw [defined_append, mem_append]
  rcases mem_append.1 hmem with hmem | hmem
  · exact .inl hmem
  · exact .inr (.inl hmem)

/-! ## Thinning -/

/-- The second row is the first with some references taken out. -/
inductive Thins : List Token → List Token → Prop
  | nil : Thins [] []
  | keep (t : Token) {ts us : List Token} : Thins ts us → Thins (t :: ts) (t :: us)
  | drop (key : OperandKey) {ts us : List Token} : Thins ts us → Thins (.refer key :: ts) us

namespace Thins

variable {ts us : List Token}

theorem refl (ts : List Token) : Thins ts ts := by
  induction ts with
  | nil => exact .nil
  | cons t rest ih => exact .keep t ih

theorem append {vs ws : List Token} (h : Thins ts us) (h' : Thins vs ws) : Thins (ts ++ vs) (us ++ ws) := by
  induction h with
  | nil => exact h'
  | keep t _ ih => exact .keep t ih
  | drop key _ ih => exact .drop key ih

theorem trans {vs : List Token} (h : Thins ts us) (h' : Thins us vs) : Thins ts vs := by
  induction h generalizing vs with
  | nil => exact h'
  | keep t _ ih =>
    cases h' with
    | keep _ h' => exact .keep t (ih h')
    | drop key h' => exact .drop key (ih h')
  | drop key _ ih => exact .drop key (ih h')

theorem effects_eq (h : Thins ts us) : effects us = effects ts := by
  induction h with
  | nil => rfl
  | keep t _ ih => simp only [effects, filterMap_cons] at ih ⊢; rw [ih]
  | drop key _ ih => simpa only [effects, filterMap_cons, effect?] using ih

theorem defined_eq (h : Thins ts us) : defined us = defined ts := by
  induction h with
  | nil => rfl
  | keep t _ ih => simp only [defined, filterMap_cons] at ih ⊢; rw [ih]
  | drop key _ ih => rw [defined_refer, ih]

theorem references_le (h : Thins ts us) (key : OperandKey) : references us key ≤ references ts key := by
  induction h with
  | nil => exact Nat.le_refl _
  | keep t _ ih =>
    simp only [references, count_cons] at ih ⊢
    omega
  | drop k _ ih =>
    simp only [references, count_cons] at ih ⊢
    omega

theorem dominated (h : Thins ts us) {ks : List OperandKey} (hd : Dominated ks ts) : Dominated ks us := by
  induction h generalizing ks with
  | nil => trivial
  | keep t _ ih =>
    cases t with
    | effect e => exact ih hd
    | define k => rw [Dominated] at hd ⊢; exact ih hd
    | refer k => exact ⟨hd.1, ih hd.2⟩
  | drop k _ ih => exact ih hd.2

end Thins

/-! ## Definitions taken out -/

/-- The row without the definitions of some operands. -/
def without (gone : OperandKey → Bool) (ts : List Token) : List Token :=
  ts.filter fun
    | .define key => !gone key
    | _ => true

section

variable (gone : OperandKey → Bool)

@[simp] theorem without_append (ts us : List Token) :
    without gone (ts ++ us) = without gone ts ++ without gone us := filter_append ..

@[simp] theorem without_define (key : OperandKey) (ts : List Token) :
    without gone (.define key :: ts) = if gone key then without gone ts else .define key :: without gone ts := by
  rw [without, filter_cons, without]
  by_cases hg : gone key = true
  · rw [if_pos hg, if_neg (by simp only [hg, Bool.not_true, Bool.false_eq_true, not_false_eq_true])]
  · rw [if_neg hg, if_pos (by simpa using hg)]

@[simp] theorem without_effect (e : Effect) (ts : List Token) :
    without gone (.effect e :: ts) = .effect e :: without gone ts := rfl

@[simp] theorem without_refer (key : OperandKey) (ts : List Token) :
    without gone (.refer key :: ts) = .refer key :: without gone ts := rfl

theorem effects_without (ts : List Token) : effects (without gone ts) = effects ts := by
  induction ts with
  | nil => rfl
  | cons t rest ih =>
    cases t with
    | effect e => simpa only [without_effect, effects, filterMap_cons, effect?, List.cons.injEq, true_and] using ih
    | refer k => simpa only [without_refer, effects, filterMap_cons, effect?] using ih
    | define k =>
      rw [without_define]
      split
      · simpa only [effects, filterMap_cons, effect?] using ih
      · simpa only [effects, filterMap_cons, effect?] using ih

theorem defined_without (ts : List Token) : defined (without gone ts) = (defined ts).filter (fun key => !gone key) := by
  induction ts with
  | nil => rfl
  | cons t rest ih =>
    cases t with
    | effect e => rw [without_effect, defined_effect, defined_effect, ih]
    | refer k => rw [without_refer, defined_refer, defined_refer, ih]
    | define k =>
      rw [without_define, defined_define, filter_cons]
      cases gone k with
      | true => simpa using ih
      | false => simpa using ih

theorem references_without (ts : List Token) (key : OperandKey) :
    references (without gone ts) key = references ts key := by
  rw [references, without, count_filter rfl, references]

end

/-- Definitions that nothing refers to can be taken out of a dominated row. -/
theorem Dominated.without (h : Dominated ks ts) {gone : OperandKey → Bool}
    (hgone : ∀ key, gone key → .refer key ∉ ts) : Dominated ks (without gone ts) := by
  induction ts generalizing ks with
  | nil => trivial
  | cons t rest ih =>
    have hrest : ∀ key, gone key → .refer key ∉ rest :=
      fun key hk hmem => hgone key hk (mem_cons_of_mem _ hmem)
    cases t with
    | effect e => exact ih h hrest
    | refer k => exact ⟨h.1, ih h.2 hrest⟩
    | define k =>
      rw [Dominated] at h
      rw [without_define]
      by_cases hk : gone k = true
      · rw [if_pos hk]
        refine ih (h.of_mem ?_) hrest
        intro key hmem hr
        rcases mem_cons.1 hmem with rfl | hmem
        · exact absurd hr (hrest key hk)
        · exact hmem
      · rw [if_neg hk, Dominated]
        exact ih h hrest

end Token

/-! ## The tokens of a tree -/

namespace Tree

/-- The tokens that a walk of the tree meets. -/
def tokens (x : Tree) : List Token := x.walk.filterMap Expr.token?

variable {x y : Tree} {xs ys : List Tree} {key : OperandKey} {n : Nat}

/-- Alike nodes have the same effect, if any, in front of the tokens of their operands. -/
theorem Alike.tokens_eq (h : Alike xs ys x y) : ∃ e : Option Effect,
    x.tokens = (e.map Token.effect).toList ++ xs.flatMap tokens ∧
      y.tokens = (e.map Token.effect).toList ++ ys.flatMap tokens := by
  have hnode : ∀ {zs z}, Over zs z → z.tokens = (z.head.effect?.map Token.effect).toList ++ zs.flatMap tokens := by
    intro zs z hz
    have htoken : z.head.token? = z.head.effect?.map .effect := by
      cases hz <;> rw [head] <;> rfl
    rw [tokens, hz.walk_eq, filterMap_cons, htoken, filterMap_flatMap]
    cases z.head.effect? with
    | none => rfl
    | some e => rfl
  have heffect : y.head.effect? = x.head.effect? := by
    cases h with
    | leaf l => rfl
    | unary op x y => rw [head_unary, head_unary]; rfl
    | store x y x' y' => rw [head, head]; rfl
    | many op xs ys hlen => simp only [head, Expr.effect?, length_map, hlen]
  exact ⟨x.head.effect?, hnode h.left, by rw [hnode h.right, heffect]⟩

theorem Alike.defined_eq (h : Over xs x) : Token.defined x.tokens = Token.defined (xs.flatMap tokens) := by
  obtain ⟨e, hx, _⟩ := h.tokens_eq
  rw [hx]
  cases e with
  | none => rfl
  | some e => rfl

theorem Alike.references_eq (h : Over xs x) (key : OperandKey) :
    Token.references x.tokens key = Token.references (xs.flatMap tokens) key := by
  obtain ⟨e, hx, _⟩ := h.tokens_eq
  rw [hx, Token.references_append]
  cases e with
  | none => exact Nat.zero_add _
  | some e => exact Nat.zero_add _

theorem Alike.uses_eq (h : Over xs x) (key : OperandKey) : Token.uses x.tokens key = Token.uses (xs.flatMap tokens) key := by
  rw [Token.uses, Token.count_define, h.defined_eq, h.references_eq, ← Token.count_define, Token.uses]

theorem Alike.refer_mem_iff (h : Over xs x) : .refer key ∈ x.tokens ↔ .refer key ∈ xs.flatMap tokens := by
  rw [← Token.references_pos_iff, h.references_eq, Token.references_pos_iff]

theorem Alike.dominated_iff (h : Over xs x) {ks : List OperandKey} :
    Token.Dominated ks x.tokens ↔ Token.Dominated ks (xs.flatMap tokens) := by
  obtain ⟨e, hx, _⟩ := h.tokens_eq
  rw [hx]
  cases e with
  | none => rfl
  | some e => rfl

@[simp] theorem tokens_unary (op : UnaryOp) (x : Tree) :
    (unary op x).tokens = (op.effect?.map Token.effect).toList ++ x.tokens := by
  simp only [tokens, walk, filterMap_cons, Expr.token?, Expr.effect?]
  cases op.effect? with
  | none => rfl
  | some e => rfl

@[simp] theorem tokens_many (op : ManyOp) (args : List Tree) :
    (many op args).tokens = .effect (op.effect args.length) :: args.flatMap tokens := by
  simp only [tokens, walk, filterMap_cons, filterMap_flatMap, Expr.token?, Expr.effect?, map_some, length_map]
  rfl

@[simp] theorem tokens_reference (key : OperandKey) (noIncr : Bool) : (reference key noIncr).tokens = [.refer key] := by
  simp only [tokens, walk, filterMap_cons, filterMap_nil, Expr.token?]

@[simp] theorem tokens_definition (key : OperandKey) (noIncr : Bool) (x : Tree) :
    (definition key noIncr x).tokens = .define key :: x.tokens := by
  simp only [tokens, walk, filterMap_cons, Expr.token?]

@[simp] theorem tokens_inlined (key : OperandKey) (x : Tree) : (inlined key x).tokens = x.tokens := by
  simp only [tokens, walk]

theorem Enters.references_eq (h : Enters key x y) (j : OperandKey) :
    Token.references y.tokens j = Token.references x.tokens j := by
  cases h with
  | definition noIncr => rw [tokens_definition, Token.references_define]
  | inlined => rw [tokens_inlined]

theorem Enters.refer_mem_iff {j : OperandKey} (h : Enters key x y) : .refer j ∈ y.tokens ↔ .refer j ∈ x.tokens := by
  rw [← Token.references_pos_iff, h.references_eq, Token.references_pos_iff]

theorem defined_sublist_flatMap (h : ∀ x ∈ xs, (Token.defined x.tokens).Sublist x.keys) :
    (Token.defined (xs.flatMap tokens)).Sublist (xs.flatMap keys) := by
  induction xs with
  | nil => exact nil_sublist _
  | cons x rest ih =>
    rw [flatMap_cons, flatMap_cons, Token.defined_append]
    exact (h x mem_cons_self).append (ih fun y hy => h y (mem_cons_of_mem _ hy))

/-- The operands that a tree defines are among those that it enters. -/
theorem defined_sublist_keys (x : Tree) : (Token.defined x.tokens).Sublist x.keys := by
  induction x using inductOver with
  | above xs x hx ih => rw [hx.defined_eq, hx.keys_eq]; exact defined_sublist_flatMap ih
  | reference key noIncr => rw [tokens_reference]; exact nil_sublist _
  | enters key x y hy ih =>
    rw [hy.keys_eq]
    cases hy with
    | definition noIncr => rw [tokens_definition]; exact ih.cons_cons key
    | inlined => rw [tokens_inlined]; exact ih.cons key

theorem defined_sublist_flatMap_keys (xs : List Tree) : (Token.defined (xs.flatMap tokens)).Sublist (xs.flatMap keys) :=
  defined_sublist_flatMap fun x _ => defined_sublist_keys x

/-- Every operand that a tree refers to is below the bound. -/
theorem Below.lt_of_refer (h : x.Below n) (hk : .refer key ∈ x.tokens) : key < n := by
  induction x using inductOver generalizing n with
  | above xs x hx ih =>
    obtain ⟨y, hy, hk⟩ := mem_flatMap.1 (hx.refer_mem_iff.1 hk)
    exact ih y hy (hx.below_iff.1 h y hy) hk
  | reference k noIncr =>
    rw [Below] at h
    rw [tokens_reference, mem_singleton, Token.refer.injEq] at hk
    rwa [hk]
  | enters k x y hy ih =>
    obtain ⟨hkn, hx⟩ := hy.below_iff.1 h
    exact Nat.lt_trans (ih hx (hy.refer_mem_iff.1 hk)) hkn

end Tree
end Firmware
