import Firmware.Proofs.Procedure.Unfolding

/-!
# Values that are not counted

Whether a value is reference counted is read off an expression with the table at hand, and passes
ask it in the middle of their work, while operands are being rewritten. What keeps the answers
straight is that counting operators play no part in it: take them away from around a value, or put
them there, and the value is what it was. So there is one answer per operand for the whole of
resolving (`Operands.uncountable`), read off the table under construction, and an operand that is
settled agrees with it (`Settled.uncountedTo_eq`).
-/

open List

namespace Firmware

open Expr

namespace Expr

mutual

/-- The value of an expression is not reference counted, whatever counting stands around it, given
which operands' values are not. -/
def uncountableStep (operand : OperandKey → Bool) : Expr → Bool
  | .leaf (.number _) => true
  | .unary .incr x => uncountableStep operand x
  | .unary .decr x => uncountableStep operand x
  | .many .sequence items => uncountableLast operand items
  | .many (.runtimeCall name _ _) _ =>
    name == "String_::mkEmpty" || name == "pxt::ptrOfLiteral"
  | .reference key _ => operand key
  | .definition key _ => operand key
  | .inlined key => operand key
  | _ => false

/-- The last of several values is not reference counted, whatever counting stands around it. -/
def uncountableLast (operand : OperandKey → Bool) : List Expr → Bool
  | [] => true
  | [x] => uncountableStep operand x
  | _ :: rest => uncountableLast operand rest

end

/-- The value of `e` is not reference counted, looking into operands to the given depth. -/
def uncountableTo (t : Operands) : Nat → Expr → Bool
  | 0, e => uncountableStep (fun _ => false) e
  | depth + 1, e => uncountableStep (fun key => uncountableTo t depth (t.value key)) e

theorem uncountedLast_eq (f : OperandKey → Bool) (items : List Expr) :
    uncountedLast f items = (items.getLast?.map (uncountedStep f)).getD true := by
  induction items with
  | nil => rfl
  | cons x rest ih =>
    cases rest with
    | nil => rfl
    | cons y rest => rw [uncountedLast, ih, getLast?_cons_cons]; simp

theorem uncountableLast_eq (f : OperandKey → Bool) (items : List Expr) :
    uncountableLast f items = (items.getLast?.map (uncountableStep f)).getD true := by
  induction items with
  | nil => rfl
  | cons x rest ih =>
    cases rest with
    | nil => rfl
    | cons y rest => rw [uncountableLast, ih, getLast?_cons_cons]; simp

/-- A value that is not counted as it stands is none that could be. -/
theorem uncountable_of_uncounted {f : OperandKey → Bool} {e : Expr}
    (h : uncountedStep f e = true) : uncountableStep f e = true := by
  induction e using Expr.induct with
  | leaf l => cases l <;> simp_all only [uncountedStep, uncountableStep, Bool.false_eq_true]
  | many op args ih =>
    cases op with
    | sequence =>
      rw [uncountedStep, uncountedLast_eq] at h
      rw [uncountableStep, uncountableLast_eq]
      cases hlast : args.getLast? with
      | none => rfl
      | some x =>
        rw [hlast] at h
        exact ih x (mem_of_getLast? hlast) h
    | runtimeCall name convention mask => exact h
    | procedureCall callee => simp only [uncountedStep, Bool.false_eq_true] at h
  | reference key noIncr => exact h
  | definition key noIncr => exact h
  | inlined key => exact h
  | _ => simp only [uncountedStep, Bool.false_eq_true] at h

section

variable {f g : OperandKey → Bool} {es es' : List Expr} {e e' : Expr} (h : Alike es es' e e')
include h

/-- Whether the value of a node is counted depends on the value of its last operand. -/
theorem Alike.uncountable_eq (hlast : es.map (uncountableStep f) = es'.map (uncountableStep g)) :
    uncountableStep f e = uncountableStep g e' := by
  cases h with
  | leaf l => cases l <;> rfl
  | unary op e e' =>
    have hval := (List.cons.inj hlast).1
    cases op <;> simp only [uncountableStep, hval]
  | store e f e' f' => rfl
  | many op es es' =>
    cases op with
    | sequence => simp only [uncountableStep, uncountableLast_eq, ← getLast?_map, hlast]
    | runtimeCall name convention mask => rfl
    | procedureCall callee => rfl

theorem Alike.uncounted_eq (hlast : es.map (uncountedStep f) = es'.map (uncountedStep g)) :
    uncountedStep f e = uncountedStep g e' := by
  cases h with
  | leaf l => cases l <;> rfl
  | unary op e e' => rfl
  | store e f e' f' => rfl
  | many op es es' =>
    cases op with
    | sequence => simp only [uncountedStep, uncountedLast_eq, ← getLast?_map, hlast]
    | runtimeCall name convention mask => rfl
    | procedureCall callee => rfl

end

/-- In an expression under construction only earlier operands matter. -/
theorem uncountableStep_congr {f g : OperandKey → Bool} {n : Nat} (h : ∀ key, key < n → f key = g key)
    {e : Expr} (he : e.isSource n = true) : uncountableStep f e = uncountableStep g e := by
  induction e, he using inductSource with
  | above es e he hover ih =>
    exact hover.uncountable_eq (map_congr_left fun x hx => ih x hx (hover.isSource_iff.1 he x hx))
  | reference key noIncr _ hk => exact h key hk

end Expr

/-! ## One answer per operand -/

/-- Whether the value of an operand under construction is not reference counted. -/
def Operands.uncountable (t : Operands) (key : OperandKey) : Bool :=
  uncountableTo t key (t.value key)

/-- A depth that the keys stay below is enough. -/
theorem Operands.IsSource.uncountableTo_eq {t : Operands} (ht : t.IsSource) {n depth : Nat}
    (hd : n ≤ depth) {e : Expr} (he : e.isSource n = true) :
    uncountableTo t depth e = uncountableStep t.uncountable e := by
  induction depth using Nat.strongRecOn generalizing n e with
  | ind depth ih =>
    cases depth with
    | zero =>
      refine uncountableStep_congr ?_ he
      exact fun key hk => absurd (Nat.lt_of_lt_of_le hk hd) (Nat.not_lt_zero key)
    | succ depth =>
      refine uncountableStep_congr ?_ he
      intro key hk
      have hkd : key < depth + 1 := Nat.lt_of_lt_of_le hk hd
      rw [ih depth (Nat.lt_succ_self depth) (Nat.le_of_lt_succ hkd) (ht key), uncountable,
        ih key hkd (Nat.le_refl key) (ht key)]

theorem Operands.IsSource.uncountable_eq {t : Operands} (ht : t.IsSource) (key : OperandKey) :
    t.uncountable key = uncountableStep t.uncountable (t.value key) :=
  ht.uncountableTo_eq (Nat.le_refl key) (ht key)

namespace Tree

variable {u : OperandKey → Bool} {x y : Tree} {key : OperandKey} {t : Operands} {n : Nat}
  {done xs : List Tree} {e : Expr}

/-! ## Trees that agree with the answers -/

/-- What stands under each key that the tree enters is as uncounted as the key says, whatever
counting stands around it. -/
def Agrees (u : OperandKey → Bool) (x : Tree) : Prop :=
  ∀ key y, (key, y) ∈ x.bindings → uncountableStep u y.head = u key

theorem Alike.agrees_iff (h : Over xs x) : Agrees u x ↔ ∀ y ∈ xs, Agrees u y := h.binds_iff

theorem Enters.agrees_iff (h : Enters key x y) : Agrees u y ↔ uncountableStep u x.head = u key ∧ Agrees u x :=
  h.binds_iff

theorem agrees_unary {op : UnaryOp} : Agrees u (.unary op x) ↔ Agrees u x := by
  simp only [Agrees, bindings]

/-! ## Unfolding keeps the answers -/

theorem uncountable_unfoldStep {enter : List OperandKey → OperandKey → Tree}
    (he : e.isSource n = true) (seen : List OperandKey) :
    uncountableStep u (Expr.unfoldStep enter seen e).head = uncountableStep u e := by
  induction e, he using inductSource generalizing seen with
  | above es e he hover ih =>
    refine ((over_unfoldStep hover enter seen).2.uncountable_eq ?_).symm
    have hes := hover.isSource_iff.1 he
    clear he hover
    induction es generalizing seen with
    | nil => rfl
    | cons f rest ihr =>
      rw [unfoldSteps, map_cons, map_cons, map_cons, ih f mem_cons_self (hes f mem_cons_self),
        ← ihr (fun g hg => ih g (mem_cons_of_mem _ hg)) _ fun g hg => hes g (mem_cons_of_mem _ hg)]
  | reference key noIncr _ _ =>
    rw [Expr.unfoldStep]
    split
    · rw [head]
    · rw [head]; rfl

theorem agrees_unfoldStep {enter : List OperandKey → OperandKey → Tree}
    (henter : ∀ seen key, key < n → uncountableStep u (enter seen key).head = u key ∧ Agrees u (enter seen key))
    (he : e.isSource n = true) (seen : List OperandKey) :
    Agrees u (Expr.unfoldStep enter seen e) := by
  induction e, he using inductSource generalizing seen with
  | above es e he hover ih =>
    refine (over_unfoldStep hover enter seen).1.agrees_iff.2 ?_
    have hes := hover.isSource_iff.1 he
    clear he hover
    induction es generalizing seen with
    | nil => exact fun _ hx => absurd hx not_mem_nil
    | cons f rest ihr =>
      rw [unfoldSteps, forall_mem_cons]
      exact ⟨ih f mem_cons_self (hes f mem_cons_self) seen, ihr (fun g hg => ih g (mem_cons_of_mem _ hg)) _
        fun g hg => hes g (mem_cons_of_mem _ hg)⟩
  | reference key noIncr _ hk =>
    rw [Expr.unfoldStep]
    split
    · exact binds_of_keys_eq_nil (keys_reference key noIncr)
    · exact (Enters.definition noIncr).agrees_iff.2 (henter _ key hk)

/-- What an expression unfolds to agrees with the answers read off the table. -/
theorem agrees_unfoldTo (ht : t.IsSource) {depth : Nat} (hd : n ≤ depth) (he : e.isSource n = true)
    (seen : List OperandKey) : Agrees t.uncountable (unfoldTo t depth seen e) := by
  induction depth generalizing n e seen with
  | zero =>
    rw [unfoldTo_eq]
    refine agrees_unfoldStep ?_ he seen
    exact fun _ key hk => absurd (Nat.lt_of_lt_of_le hk hd) (Nat.not_lt_zero key)
  | succ depth ih =>
    rw [unfoldTo_eq]
    refine agrees_unfoldStep ?_ he seen
    intro seen key hk
    refine ⟨?_, ih (Nat.le_of_lt_succ (Nat.lt_of_lt_of_le hk hd)) (ht key) seen⟩
    rw [unfoldInto, unfoldTo_eq, uncountable_unfoldStep (ht key), ← ht.uncountable_eq]

theorem agrees_unfoldAll (ht : t.IsSource) {es : List Expr}
    (hes : ∀ e ∈ es, e.isSource t.length = true) (seen : List OperandKey) :
    ∀ x ∈ unfoldAll t seen es, Agrees t.uncountable x := by
  induction es generalizing seen with
  | nil => exact fun _ hx => absurd hx not_mem_nil
  | cons e rest ih =>
    obtain ⟨he, hrest⟩ := forall_mem_cons.1 hes
    rw [unfoldAll, forall_mem_cons]
    exact ⟨agrees_unfoldTo ht (Nat.le_refl _) he seen, ih hrest _⟩

/-! ## Settled operands -/

/-- What stands inside of an operand stands inside of the tree. -/
theorem inside_of_binding (h : (key, y) ∈ x.bindings) :
    (∀ b ∈ y.bindings, b ∈ x.bindings) ∧ ∀ j, .refer j ∈ y.tokens → .refer j ∈ x.tokens := by
  induction x using inductOver with
  | above xs x hx ih =>
    rw [hx.bindings_eq, mem_flatMap] at h
    obtain ⟨z, hz, h⟩ := h
    rw [hx.bindings_eq]
    refine ⟨fun b hb => mem_flatMap.2 ⟨z, hz, (ih z hz h).1 b hb⟩, fun j hj => hx.refer_mem_iff.2 ?_⟩
    exact mem_flatMap.2 ⟨z, hz, (ih z hz h).2 j hj⟩
  | reference k noIncr => simp only [bindings, not_mem_nil] at h
  | enters k x z hz ih =>
    have hrefer : ∀ j, .refer j ∈ x.tokens → .refer j ∈ z.tokens := fun j => hz.refer_mem_iff.2
    rw [hz.bindings_eq, mem_cons, Prod.mk.injEq] at h
    rw [hz.bindings_eq]
    rcases h with ⟨rfl, rfl⟩ | h
    · exact ⟨fun b hb => mem_cons_of_mem _ hb, hrefer⟩
    · exact ⟨fun b hb => mem_cons_of_mem _ ((ih h).1 b hb), fun j hj => hrefer j ((ih h).2 j hj)⟩

/-- The tree mentions the operand: it refers to it or enters it. -/
def Mentions (x : Tree) (key : OperandKey) : Prop := .refer key ∈ x.tokens ∨ key ∈ x.keys

theorem Mentions.lt (hb : x.Below n) (h : x.Mentions key) : key < n := by
  rcases h with h | h
  · exact hb.lt_of_refer h
  · exact hb.lt_of_mem_keys h

theorem Alike.mentions_iff (h : Over xs x) : x.Mentions key ↔ ∃ y ∈ xs, y.Mentions key := by
  simp only [Mentions, h.refer_mem_iff, h.keys_eq, mem_flatMap, and_or_left, exists_or]

theorem Enters.mentions {j : OperandKey} (h : Enters key x y) (hj : x.Mentions j) : y.Mentions j := by
  rw [Mentions, h.refer_mem_iff, h.keys_eq]
  exact hj.imp_right (mem_cons_of_mem _)

/-- Only the operands that a tree mentions matter for whether its value is counted. -/
theorem steps_congr {f g : OperandKey → Bool} (h : ∀ key, x.Mentions key → f key = g key) :
    uncountedStep f x.head = uncountedStep g x.head ∧ uncountableStep f x.head = uncountableStep g x.head := by
  induction x using inductOver with
  | above xs x hx ih =>
    have hxs := fun y hy => ih y hy fun key hk => h key (hx.mentions_iff.2 ⟨y, hy, hk⟩)
    refine ⟨hx.heads.uncounted_eq ?_, hx.heads.uncountable_eq ?_⟩
    · rw [map_map, map_map]; exact map_congr_left fun y hy => (hxs y hy).1
    · rw [map_map, map_map]; exact map_congr_left fun y hy => (hxs y hy).2
  | reference key noIncr =>
    have hkey := h key (.inl (by rw [tokens_reference]; exact mem_cons_self))
    rw [head]
    exact ⟨hkey, hkey⟩
  | enters key x y hy ih =>
    have hkey := h key (.inr (by rw [hy.keys_eq]; exact mem_cons_self))
    cases hy with
    | definition noIncr => rw [head]; exact ⟨hkey, hkey⟩
    | inlined => rw [head]; exact ⟨hkey, hkey⟩

/-- In a row that refers to operands of its own only, an operand mentions earlier ones of the row. -/
theorem mentions_of_binding (hb : x.Below n) (hx : x ∈ done)
    (hc : ∀ key, .refer key ∈ x.tokens → key ∈ done.flatMap keys) (hy : (key, y) ∈ x.bindings)
    {j : OperandKey} (hj : y.Mentions j) : j < key ∧ j ∈ done.flatMap keys := by
  refine ⟨hj.lt (hb.of_binding hy).2, ?_⟩
  rcases hj with hj | hj
  · exact hc j ((inside_of_binding hy).2 _ hj)
  · obtain ⟨b, hb, rfl⟩ := mem_map.1 hj
    exact mem_flatMap.2 ⟨x, hx, mem_map_of_mem ((inside_of_binding hy).1 b hb)⟩

/-- The tree agrees with the answers as it stands, counting included. -/
def Settles (u : OperandKey → Bool) (x : Tree) : Prop :=
  ∀ key y, (key, y) ∈ x.bindings → uncountedStep u y.head = u key

/-- The trees are in the table, agree with the answers as they stand, and refer to operands that
they define. -/
structure Settled (u : OperandKey → Bool) (t : Operands) (done : List Tree) : Prop where
  stored : ∀ x ∈ done, Stored t x
  below : ∀ x ∈ done, x.Below t.length
  settles : ∀ x ∈ done, Settles u x
  closed : ∀ x ∈ done, ∀ key, .refer key ∈ x.tokens → key ∈ done.flatMap keys

theorem Settled.nil (u : OperandKey → Bool) (t : Operands) : Settled u t [] :=
  ⟨fun _ h => absurd h not_mem_nil, fun _ h => absurd h not_mem_nil,
    fun _ h => absurd h not_mem_nil, fun _ h => absurd h not_mem_nil⟩

theorem Settled.frame {t' : Operands} (h : Settled u t done) (hlen : t'.length = t.length)
    (hval : ∀ key ∈ done.flatMap keys, t'.value key = t.value key) : Settled u t' done := by
  refine ⟨?_, ?_, h.settles, h.closed⟩
  · intro x hx
    refine (h.stored x hx).frame hlen ?_
    exact fun key hk => hval key (mem_flatMap.2 ⟨x, hx, hk⟩)
  · intro x hx
    rw [hlen]
    exact h.below x hx

section

variable (h : Settled u t done)
include h

theorem Settled.snoc (hx : Stored t x) (hb : x.Below t.length)
    (hs : Settles u x) (hc : ∀ key, .refer key ∈ x.tokens → key ∈ done.flatMap keys ∨ key ∈ x.keys) :
    Settled u t (done ++ [x]) := by
  have hkeys : (done ++ [x]).flatMap keys = done.flatMap keys ++ x.keys := by
    simp only [flatMap_append, flatMap_cons, flatMap_nil, append_nil]
  have hmem : ∀ y, y ∈ done ++ [x] → y ∈ done ∨ y = x := by
    intro y hy
    rcases mem_append.1 hy with hy | hy
    · exact .inl hy
    · exact .inr (mem_singleton.1 hy)
  refine ⟨?_, ?_, ?_, ?_⟩
  · intro y hy
    rcases hmem y hy with hy | rfl
    · exact h.stored y hy
    · exact hx
  · intro y hy
    rcases hmem y hy with hy | rfl
    · exact h.below y hy
    · exact hb
  · intro y hy
    rcases hmem y hy with hy | rfl
    · exact h.settles y hy
    · exact hs
  · intro y hy key hk
    rw [hkeys, mem_append]
    rcases hmem y hy with hy | rfl
    · exact .inl (h.closed y hy key hk)
    · exact hc key hk

/-- The table gives the answer for a settled operand, at every depth that reaches it. -/
theorem Settled.uncountedTo_eq (hk : key ∈ done.flatMap keys) {depth : Nat}
    (hd : key ≤ depth) : uncountedTo t depth (t.value key) = u key := by
  induction depth generalizing key with
  | zero =>
    obtain ⟨x, hx, hk⟩ := mem_flatMap.1 hk
    obtain ⟨⟨_, y⟩, hy, rfl⟩ := mem_map.1 hk
    rw [(h.stored x hx _ y hy).2, ← h.settles x hx _ y hy]
    refine (steps_congr fun j hj => ?_).1
    have hlt := (mentions_of_binding (h.below x hx) hx (h.closed x hx) hy hj).1
    exact absurd (Nat.lt_of_lt_of_le hlt hd) (Nat.not_lt_zero j)
  | succ depth ih =>
    obtain ⟨x, hx, hk⟩ := mem_flatMap.1 hk
    obtain ⟨⟨_, y⟩, hy, rfl⟩ := mem_map.1 hk
    rw [(h.stored x hx _ y hy).2, ← h.settles x hx _ y hy]
    refine (steps_congr fun j hj => ?_).1
    obtain ⟨hlt, hmem⟩ := mentions_of_binding (h.below x hx) hx (h.closed x hx) hy hj
    exact ih hmem (Nat.le_of_lt_succ (Nat.lt_of_lt_of_le hlt hd))

/-- The table tells whether the value of a tree is counted, if the operands that it mentions are
settled. -/
theorem Settled.isUncounted_of_mentions (hb : x.Below t.length)
    (hm : ∀ j, x.Mentions j → j ∈ done.flatMap keys) : x.head.isUncounted t = uncountedStep u x.head := by
  rw [isUncounted]
  cases hlen : t.length with
  | zero =>
    rw [hlen] at hb
    exact (steps_congr fun j hj => absurd (hj.lt hb) (Nat.not_lt_zero j)).1
  | succ depth =>
    rw [hlen] at hb
    exact (steps_congr fun j hj => h.uncountedTo_eq (hm j hj) (Nat.le_of_lt_succ (hj.lt hb))).1

theorem Settled.mem_of_mentions (hx : x ∈ done) (hk : x.Mentions key) : key ∈ done.flatMap keys := by
  rcases hk with hk | hk
  · exact h.closed x hx key hk
  · exact mem_flatMap.2 ⟨x, hx, hk⟩

theorem Settled.isUncounted_eq (hx : x ∈ done) : x.head.isUncounted t = uncountedStep u x.head :=
  h.isUncounted_of_mentions (h.below x hx) fun _ hk => h.mem_of_mentions hx hk

end

end Tree
end Firmware
