import Firmware.Proofs.Procedure.Tree

/-!
# The state of a pass

What the elementary steps of a pass do to the table of operands. A step changes one operand at a
time, so each lemma here says what one entry is afterwards and that the others are as before.

Numbers are given to operands on the way, for dumps and messages. They play no part in what a pass
computes, so entries are compared without them (`Operand.unnumbered`).
-/

namespace Firmware

open List

/-- An operand without its number. -/
def Operand.unnumbered (o : Operand) : Operand := { o with number := none }

namespace Pass

variable {p q : Pass} {j key : OperandKey} {α : Type} {ks : List OperandKey}

/-- The table of operands. -/
abbrev table (p : Pass) : Operands := p.scope.operands

/-- The operand with a key, without its number. -/
def entry (p : Pass) (key : OperandKey) : Operand := (p.table.entry key).unnumbered

/-- The state with one operand changed. -/
def updated (p : Pass) (key : OperandKey) (f : Operand → Operand) : Pass :=
  { p with scope := p.scope.update key f }

/-- Runs a step and goes on from where it ends. -/
theorem run_bind_of {β : Type} {x : PassM α} {f : α → PassM β} {a : α} (h : x.run p = (a, q)) :
    (x >>= f).run p = (f a).run q := by
  rw [StateT.run_bind, h]
  rfl

theorem run_operand (key : OperandKey) (p : Pass) : (operand key).run p = (p.table.entry key, p) := rfl

theorem run_value (key : OperandKey) (p : Pass) : (value key).run p = (p.table.value key, p) := rfl

theorem run_update (key : OperandKey) (f : Operand → Operand) (p : Pass) :
    (update key f).run p = ((), p.updated key f) := rfl

/-- Work inside of an operand. -/
theorem run_inside {visit : Expr → PassM Expr} {x : Expr}
    (h : (visit (p.table.value key)).run p = (x, q)) :
    (inside visit key).run p = ((), q.updated key fun o => { o with value := x }) := by
  rw [inside, run_bind_of (run_value key p), run_bind_of h, run_update]

/-! ## One entry changes -/

@[simp] theorem length_updated (p : Pass) (key : OperandKey) (f : Operand → Operand) :
    (p.updated key f).table.length = p.table.length := by
  simp only [updated, table, Scope.update, length_modify]

theorem table_entry_updated_self (h : key < p.table.length) (f : Operand → Operand) :
    (p.updated key f).table.entry key = f (p.table.entry key) :=
  Operands.entry_modify_self h f

theorem table_entry_updated_ne (h : j ≠ key) (f : Operand → Operand) :
    (p.updated key f).table.entry j = p.table.entry j :=
  Operands.entry_modify_ne h f

theorem entry_updated_ne (h : j ≠ key) (f : Operand → Operand) : (p.updated key f).entry j = p.entry j := by
  rw [entry, table_entry_updated_ne h, entry]

theorem value_eq_entry (h : key < p.table.length) : p.table.value key = (p.entry key).value := Operands.value_eq_entry h

/-- What an operand out of the table holds. -/
theorem value_of_length_le {t : Operands} (h : t.length ≤ key) : t.value key = .leaf .nop := by
  simp only [Operands.value, getElem?_eq_none h]

/-- Entries that hold the same make tables that hold the same. -/
theorem value_eq_of_entry (hlen : q.table.length = p.table.length)
    (h : (q.entry key).value = (p.entry key).value) : q.table.value key = p.table.value key := by
  rcases Nat.lt_or_ge key p.table.length with hlt | hge
  · rw [value_eq_entry hlt, value_eq_entry (by rw [hlen]; exact hlt), h]
  · rw [value_of_length_le hge, value_of_length_le (by rw [hlen]; exact hge)]

/-! ## Counts -/

/-- The count of an operand's uses, as far as it is taken. -/
def total (p : Pass) (key : OperandKey) : Int := (p.entry key).totalUses

/-- The count of an operand's uses that a definition must find at zero. -/
def current (p : Pass) (key : OperandKey) : Int := (p.entry key).currentUses

/-- The number of an operand's uses that increments have been decided for. -/
def placed (p : Pass) (key : OperandKey) : Int := (p.entry key).placedUses

theorem entry_updated_self (h : key < p.table.length) (f : Operand → Operand) :
    (p.updated key f).entry key = (f (p.table.entry key)).unnumbered := by
  rw [entry, table_entry_updated_self h]

/-- There is nothing to change out of the table. -/
theorem entry_updated_of_length_le (h : p.table.length ≤ key) (f : Operand → Operand)
    (j : OperandKey) : (p.updated key f).entry j = p.entry j := by
  have htable : (p.updated key f).table = p.table := modify_eq_self h
  rw [entry, htable, entry]

/-- A count that a change of the operand keeps is kept. -/
theorem entry_updated_field (field : Operand → α) {f : Operand → Operand}
    (hf : ∀ o, field (f o).unnumbered = field o.unnumbered) (p : Pass) (key j : OperandKey) :
    field ((p.updated key f).entry j) = field (p.entry j) := by
  rcases Nat.lt_or_ge key p.table.length with hlt | hge
  · by_cases hj : j = key
    · subst hj
      rw [entry_updated_self hlt, hf, entry]
    · rw [entry_updated_ne hj]
  · rw [entry_updated_of_length_le hge]

/-- Changing what an operand holds leaves all counts as they are. -/
theorem entry_updated_value (p : Pass) (key j : OperandKey) (x : Expr) :
    (p.updated key fun o => { o with value := x }).total j = p.total j ∧
      (p.updated key fun o => { o with value := x }).current j = p.current j ∧
      (p.updated key fun o => { o with value := x }).placed j = p.placed j := by
  refine ⟨entry_updated_field Operand.totalUses ?_ p key j, entry_updated_field Operand.currentUses ?_ p key j,
    entry_updated_field Operand.placedUses ?_ p key j⟩
  all_goals exact fun _ => rfl

/-- Changing one count leaves the others as they are. -/
theorem current_updated_total (p : Pass) (key j : OperandKey) (g : Int → Int) :
    (p.updated key fun o => { o with totalUses := g o.totalUses }).current j = p.current j := by
  refine entry_updated_field Operand.currentUses ?_ p key j
  exact fun _ => rfl

theorem placed_updated_total (p : Pass) (key j : OperandKey) (g : Int → Int) :
    (p.updated key fun o => { o with totalUses := g o.totalUses }).placed j = p.placed j := by
  refine entry_updated_field Operand.placedUses ?_ p key j
  exact fun _ => rfl

theorem total_updated_self (h : key < p.table.length) (g : Int → Int) :
    (p.updated key fun o => { o with totalUses := g o.totalUses }).total key = g (p.total key) := by
  rw [total, entry_updated_self h]
  rfl

theorem total_updated_ne (h : j ≠ key) (f : Operand → Operand) : (p.updated key f).total j = p.total j := by
  rw [total, entry_updated_ne h, total]

/-- What an operand holds after it was changed. -/
theorem value_updated_self (h : key < p.table.length) (x : Expr) :
    (p.updated key fun o => { o with value := x }).table.value key = x := by
  rw [value_eq_entry (by rw [length_updated]; exact h), entry_updated_self h]
  rfl

/-! ## Numbers -/

theorem run_number (key : OperandKey) (p : Pass) :
    ∃ n q, (number key).run p = (n, q) ∧ q.table.length = p.table.length ∧
      q.failure = p.failure ∧ ∀ j, q.entry j = p.entry j := by
  cases ho : p.table[key]? with
  | none =>
    refine ⟨0, p, ?_, rfl, rfl, fun _ => rfl⟩
    simp only [number, Scope.number, ho, StateT.run_bind, StateT.run_get, StateT.run_modify, StateT.run_pure, pure_bind]
    rfl
  | some o =>
    cases hn : o.number with
    | some n =>
      refine ⟨n, p, ?_, rfl, rfl, fun _ => rfl⟩
      simp only [number, Scope.number, ho, hn, StateT.run_bind, StateT.run_get, StateT.run_modify,
        StateT.run_pure, pure_bind]
      rfl
    | none =>
      let n := p.scope.numbered + 1
      refine ⟨n, { p with scope :=
          { p.scope.update key (fun o => { o with number := some n }) with numbered := n } },
        ?_, ?_, rfl, ?_⟩
      · simp only [number, Scope.number, ho, hn, StateT.run_bind, StateT.run_get,
          StateT.run_modify, StateT.run_pure, pure_bind]
        rfl
      · simp only [table, Scope.update, length_modify]
      · intro j
        by_cases hj : j = key
        · subst hj
          have hlt : j < p.table.length := by
            rw [List.getElem?_eq_some_iff] at ho
            exact ho.1
          have hself := table_entry_updated_self hlt fun o => { o with number := some n }
          exact (congrArg Operand.unnumbered hself :)
        · exact congrArg Operand.unnumbered
            (table_entry_updated_ne (p := p) hj fun o => { o with number := some n })

/-! ## Operands that keep what they hold -/

/-- From `p` to `q` no failure is recorded and only operands with keys in `ks` may hold something
else. -/
structure Keeps (ks : List OperandKey) (p q : Pass) : Prop where
  length : q.table.length = p.table.length
  failure : q.failure = p.failure
  value : ∀ key, key ∉ ks → q.table.value key = p.table.value key

theorem Keeps.refl (p : Pass) : Keeps [] p p := ⟨rfl, rfl, fun _ _ => rfl⟩

theorem Keeps.trans {ls : List OperandKey} {r : Pass} (h : Keeps ks p q) (h' : Keeps ls q r) :
    Keeps (ks ++ ls) p r := by
  refine ⟨by rw [h'.length, h.length], by rw [h'.failure, h.failure], ?_⟩
  intro key hk
  rw [mem_append, not_or] at hk
  rw [h'.value key hk.2, h.value key hk.1]

theorem Keeps.mono {ls : List OperandKey} (h : Keeps ks p q) (hsub : ∀ key ∈ ks, key ∈ ls) : Keeps ls p q :=
  ⟨h.length, h.failure, fun key hk => h.value key fun hk' => hk (hsub key hk')⟩

/-- A tree none of whose keys is touched stays in the table. -/
theorem Keeps.stored (h : Keeps ks p q) {x : Tree} (hx : Tree.Stored p.table x)
    (hd : ∀ key ∈ x.keys, key ∉ ks) : Tree.Stored q.table x :=
  hx.frame h.length fun key hk => h.value key (hd key hk)

/-- Changing one operand. -/
theorem keeps_updated (p : Pass) (key : OperandKey) (f : Operand → Operand) : Keeps [key] p (p.updated key f) := by
  refine ⟨length_updated p key f, rfl, ?_⟩
  intro j hj
  rw [mem_singleton] at hj
  exact value_eq_of_entry (length_updated p key f) (by rw [entry_updated_ne hj])

theorem Keeps.updated (h : Keeps ks p q) (key : OperandKey) (f : Operand → Operand) :
    Keeps (key :: ks) p (q.updated key f) := by
  refine (h.trans (keeps_updated q key f)).mono fun j hj => ?_
  rcases mem_append.1 hj with hj | hj
  · exact mem_cons_of_mem _ hj
  · rw [mem_singleton.1 hj]; exact mem_cons_self

/-- A tree that does not enter the changed operand stays in the table. -/
theorem stored_updated {x : Tree} (hx : Tree.Stored p.table x) (hself : key ∉ x.keys)
    (f : Operand → Operand) : Tree.Stored (p.updated key f).table x := by
  refine (keeps_updated p key f).stored hx fun j hj hmem => ?_
  rw [mem_singleton.1 hmem] at hj
  exact hself hj

/-- Changing counts of an operand only. -/
theorem keeps_updated_counts (p : Pass) (key : OperandKey) {f : Operand → Operand}
    (hf : ∀ o, (f o).value = o.value) : Keeps [] p (p.updated key f) := by
  refine ⟨length_updated p key f, rfl, ?_⟩
  intro j _
  refine value_eq_of_entry (length_updated p key f) ?_
  exact entry_updated_field Operand.value (fun o => hf o) p key j

theorem keeps_number (key : OperandKey) (p : Pass) :
    ∃ n q, (number key).run p = (n, q) ∧ Keeps [] p q ∧ ∀ j, q.entry j = p.entry j := by
  obtain ⟨n, q, hrun, hlen, hf, hentry⟩ := run_number key p
  exact ⟨n, q, hrun, ⟨hlen, hf, fun j _ => value_eq_of_entry hlen (by rw [hentry])⟩, hentry⟩

/-! ## Depth -/

/-- What a pass of the given depth does inside of an operand. -/
def visitor (step : (Expr → PassM Expr) → Expr → PassM Expr) : Nat → Expr → PassM Expr
  | 0 => pure
  | depth + 1 => deep step depth

section

variable (step : (Expr → PassM Expr) → Expr → PassM Expr)

theorem deep_eq (depth : Nat) (e : Expr) : deep step depth e = step (visitor step depth) e := by
  cases depth with
  | zero => rfl
  | succ depth => rfl

theorem visitor_succ (depth : Nat) (e : Expr) : visitor step (depth + 1) e = step (visitor step depth) e :=
  deep_eq step depth e

theorem run_run (e : Expr) (p : Pass) : (run step e).run p = (step (visitor step p.table.length) e).run p := by
  rw [← deep_eq step]
  rfl

end

/-! ## Traversals -/

end Pass

/-- Two expressions of one kind, the one over the operands `es` and the other over `fs`. Mentions of
shared operands are none of them. -/
inductive Expr.Alike : List Expr → List Expr → Expr → Expr → Prop
  | leaf (l : Leaf) : Alike [] [] (.leaf l) (.leaf l)
  | unary (op : UnaryOp) (e f : Expr) : Alike [e] [f] (.unary op e) (.unary op f)
  | store (e f e' f' : Expr) : Alike [e, f] [e', f'] (.store e f) (.store e' f')
  | many (op : ManyOp) (es fs : List Expr) : Alike es fs (.many op es) (.many op fs)

theorem Tree.Alike.heads {xs ys : List Tree} {x y : Tree} (h : Alike xs ys x y) :
    Expr.Alike (xs.map Tree.head) (ys.map Tree.head) x.head y.head := by
  cases h with
  | leaf l => rw [Tree.head]; exact .leaf l
  | unary op x y => rw [head_unary, head_unary]; exact .unary op _ _
  | store x y x' y' => rw [Tree.head, Tree.head]; exact .store _ _ _ _
  | many op xs ys _ => rw [Tree.head, Tree.head]; exact .many op _ _

/-- A pass that goes through the operands of a node and leaves the node as it is. -/
structure Pass.Traverses (step : Expr → PassM Expr) (steps : List Expr → PassM (List Expr)) : Prop where
  leaf : ∀ l, step (.leaf l) = pure (.leaf l)
  unary : ∀ op e, step (.unary op e) = do return .unary op (← step e)
  store : ∀ e f, step (.store e f) = do let e ← step e; let f ← step f; return .store e f
  many : ∀ op es, step (.many op es) = do return .many op (← steps es)
  nil : steps [] = pure []
  cons : ∀ e es, steps (e :: es) = do let e ← step e; let es ← steps es; return e :: es

theorem Pass.Traverses.run_alike {step : Expr → PassM Expr} {steps : List Expr → PassM (List Expr)}
    (h : Traverses step steps) {es fs : List Expr} {e f : Expr} {p q : Pass} (ha : Expr.Alike es fs e f)
    (hrun : (steps es).run p = (fs, q)) : (step e).run p = (f, q) := by
  cases ha with
  | leaf l =>
    rw [h.nil] at hrun
    rw [h.leaf]
    exact congrArg (Prod.mk _) (congrArg Prod.snd hrun :)
  | unary op e f =>
    rw [h.cons, h.nil] at hrun
    have hfst := (congrArg Prod.fst hrun :)
    have hsnd := (congrArg Prod.snd hrun :)
    rw [h.unary, run_bind_of (Prod.ext (cons.inj hfst).1 hsnd)]
    rfl
  | store e f e' f' =>
    rw [h.cons, h.cons, h.nil] at hrun
    have hfst := (congrArg Prod.fst hrun :)
    have hsnd := (congrArg Prod.snd hrun :)
    have hf : (step f).run ((step e).run p).2 = (f', q) := Prod.ext (cons.inj (cons.inj hfst).2).1 hsnd
    rw [h.store, run_bind_of (Prod.ext (cons.inj hfst).1 rfl), run_bind_of hf]
    rfl
  | many op es fs =>
    rw [h.many, run_bind_of hrun]
    rfl

/-! ## Rows of trees in the table -/

namespace Tree

variable {n : Nat} {t : Operands} {x y : Tree} {key : OperandKey} {xs ys : List Tree}

/-- The trees stand in the table, next to each other: no operand is entered twice, and their keys
are below `n`. -/
structure Rooted (n : Nat) (xs : List Tree) (t : Operands) : Prop where
  stored : ∀ x ∈ xs, Stored t x
  below : ∀ x ∈ xs, x.Below n
  bound : n ≤ t.length
  nodup : (xs.flatMap Tree.keys).Nodup

theorem rooted_singleton : Rooted n [x] t ↔ Stored t x ∧ x.Below n ∧ n ≤ t.length ∧ x.keys.Nodup := by
  constructor
  · intro h
    have hn := h.nodup
    rw [flatMap_singleton] at hn
    exact ⟨h.stored x mem_cons_self, h.below x mem_cons_self, h.bound, hn⟩
  · rintro ⟨hs, hb, hbound, hn⟩
    exact ⟨forall_mem_singleton.2 hs, forall_mem_singleton.2 hb, hbound, by rwa [flatMap_singleton]⟩

theorem Rooted.over (h : Rooted n [x] t) (hx : Over xs x) : Rooted n xs t := by
  obtain ⟨hs, hb, hbound, hn⟩ := rooted_singleton.1 h
  exact ⟨hx.stored_iff.1 hs, hx.below_iff.1 hb, hbound, by rwa [← hx.keys_eq]⟩

theorem Rooted.enters (h : Rooted n [y] t) (hy : Enters key x y) :
    Rooted key [x] t ∧ key < n ∧ t.value key = x.head ∧ key ∉ x.keys := by
  obtain ⟨hs, hb, _, hn⟩ := rooted_singleton.1 h
  obtain ⟨hlt, hv, hs⟩ := hy.stored_iff.1 hs
  obtain ⟨hk, hb⟩ := hy.below_iff.1 hb
  rw [hy.keys_eq, nodup_cons] at hn
  exact ⟨rooted_singleton.2 ⟨hs, hb, Nat.le_of_lt hlt, hn.2⟩, hk, hv, hn.1⟩

theorem Rooted.first (h : Rooted n (x :: xs) t) : Rooted n [x] t := by
  have hn := h.nodup
  rw [flatMap_cons, nodup_append] at hn
  exact rooted_singleton.2 ⟨h.stored x mem_cons_self, h.below x mem_cons_self, h.bound, hn.1⟩

/-- The keys of the first tree are not those of the others. -/
theorem Rooted.apart (h : Rooted n (x :: xs) t) (hk : key ∈ x.keys) : key ∉ xs.flatMap Tree.keys := by
  have hn := h.nodup
  rw [flatMap_cons, nodup_append] at hn
  exact fun hk' => hn.2.2 key hk key hk' rfl

/-- Work in the first tree leaves the others where they are. -/
theorem Rooted.rest {p q : Pass} (h : Rooted n (x :: xs) p.table) (hpq : Pass.Keeps x.keys p q) :
    Rooted n xs q.table := by
  have hn := h.nodup
  rw [flatMap_cons, nodup_append] at hn
  refine ⟨?_, fun y hy => h.below y (mem_cons_of_mem _ hy), ?_, hn.2.1⟩
  · intro y hy
    refine hpq.stored (h.stored y (mem_cons_of_mem _ hy)) ?_
    exact fun key hk hk' => h.apart hk' (mem_flatMap.2 ⟨y, hy, hk⟩)
  · rw [hpq.length]
    exact h.bound

end Tree

/-! ## Trees that are turned into others -/

namespace Pass

open Firmware.Tree
variable {x x' y y' : Tree} {xs ys : List Tree} {p q r : Pass} {key : OperandKey}

/-- From `p` to `q` the trees `xs` are turned into `ys`: operands that `xs` does not enter hold what
they did, and those that `ys` enters hold what they should. -/
structure Turns (xs ys : List Tree) (p q : Pass) : Prop where
  keeps : Keeps (xs.flatMap Tree.keys) p q
  stored : ∀ y ∈ ys, Stored q.table y

theorem turns_singleton : Turns [x] [y] p q ↔ Keeps x.keys p q ∧ Stored q.table y := by
  constructor
  · rintro ⟨hkeeps, hstored⟩
    rw [flatMap_singleton] at hkeeps
    exact ⟨hkeeps, hstored y mem_cons_self⟩
  · rintro ⟨hkeeps, hstored⟩
    exact ⟨by rwa [flatMap_singleton], forall_mem_singleton.2 hstored⟩

theorem Turns.refl (h : ∀ x ∈ xs, Stored p.table x) : Turns xs xs p p :=
  ⟨(Keeps.refl p).mono fun _ hk => absurd hk not_mem_nil, h⟩

theorem Turns.alike (h : Turns xs ys p q) (ha : Alike xs ys x y) : Turns [x] [y] p q :=
  turns_singleton.2 ⟨by rw [ha.left.keys_eq]; exact h.keeps, ha.right.stored_iff.2 h.stored⟩

theorem Turns.cons (h : Turns [x] [y] p q) (h' : Turns xs ys q r)
    (hapart : ∀ key ∈ y.keys, key ∉ xs.flatMap Tree.keys) : Turns (x :: xs) (y :: ys) p r := by
  obtain ⟨hkeeps, hstored⟩ := turns_singleton.1 h
  refine ⟨?_, forall_mem_cons.2 ⟨h'.keeps.stored hstored hapart, h'.stored⟩⟩
  rw [flatMap_cons]
  exact hkeeps.trans h'.keeps

/-- An operand takes up what its tree was turned into. -/
theorem Turns.inside (h : Turns [x] [x'] p q) (hlt : key < q.table.length) (hself : key ∉ x'.keys)
    (hy : Enters key x y) (hy' : Enters key x' y') :
    Turns [y] [y'] p (q.updated key fun o => { o with value := x'.head }) := by
  obtain ⟨hkeeps, hstored⟩ := turns_singleton.1 h
  refine turns_singleton.2 ⟨by rw [hy.keys_eq]; exact hkeeps.updated key _, hy'.stored_iff.2 ⟨?_, ?_, ?_⟩⟩
  · rw [length_updated]; exact hlt
  · exact value_updated_self hlt _
  · exact stored_updated hstored hself _

/-- Numbers and counts may change before. -/
theorem Keeps.turns (h : Keeps [] p q) (h' : Turns xs ys q r) : Turns xs ys p r := ⟨h.trans h'.keeps, h'.stored⟩

end Pass
end Firmware
