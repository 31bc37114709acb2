import Firmware.Proofs.Procedure.SimplifyRun

/-!
# Counting

The pass that counts uses opens a count at each definition and raises it at each reference. A
definition whose only use is itself gives way to what it holds (`Tree.strip`). Which operands have
one use was found out when definitions were introduced, so the pass finds every count as it needs it
and records no failure (`run_count`).
-/

namespace Firmware

open Token

open List hiding head

/-! ## Definitions that give way -/

namespace Tree

variable {x y : Tree} {gone u : OperandKey → Bool} {key : OperandKey}

/-- What stands in place of a definition that gives way. -/
def inlineAt (key : OperandKey) (x : Tree) : Tree :=
  if x.head.isCompound then .inlined key x else x

/-- The tree without the definitions of some operands, which give way to what they hold. -/
def strip (gone : OperandKey → Bool) : Tree → Tree
  | .leaf l => .leaf l
  | .unary op x => .unary op (x.strip gone)
  | .store target value => .store (target.strip gone) (value.strip gone)
  | .many op args => .many op (args.map (strip gone))
  | .reference key noIncr => .reference key noIncr
  | .definition key noIncr x =>
    if gone key then inlineAt key (x.strip gone) else .definition key noIncr (x.strip gone)
  | .inlined key x => .inlined key (x.strip gone)

@[simp] theorem tokens_inlineAt (key : OperandKey) (x : Tree) : (inlineAt key x).tokens = x.tokens := by
  rw [inlineAt]
  split
  · exact tokens_inlined key x
  · rfl

/-- The second row is the first without the definitions of some operands. -/
def Lacks (gone : OperandKey → Bool) (ts us : List Token) : Prop := us = without gone ts

theorem rowRelation_lacks (gone : OperandKey → Bool) : RowRelation (Lacks gone) := by
  refine ⟨fun e => ?_, fun h h' => ?_⟩
  · cases e with
    | none => rfl
    | some e => rfl
  · rw [Lacks, without_append, ← h, ← h']

/-- The mention of an operand may stay. -/
theorem Reduces.definition (h : Reduces (Lacks gone) u x y) (hg : ¬ gone key = true) (noIncr : Bool) :
    Reduces (Lacks gone) u (.definition key noIncr x) (.definition key noIncr y) := by
  refine h.enters (.definition noIncr) (.definition noIncr) ?_
  rw [Lacks, tokens_definition, tokens_definition, without_define, if_neg hg, ← h.tokens]

/-- A definition may give way. -/
theorem Reduces.inlineAt (h : Reduces (Lacks gone) u x y) (hg : gone key = true) (noIncr : Bool) :
    Reduces (Lacks gone) u (.definition key noIncr x) (inlineAt key y) := by
  have ht : Lacks gone (Tree.definition key noIncr x).tokens y.tokens := by
    rw [Lacks, tokens_definition, without_define, if_pos hg, ← h.tokens]
  rw [Tree.inlineAt]
  split
  · exact h.enters (.definition noIncr) .inlined (by rwa [tokens_inlined])
  · exact Reduces.then (R := fun _ _ => True) ((Enters.definition noIncr).reduces trivial) h ht

theorem Reduces.inlined (h : Reduces (Lacks gone) u x y) (key : OperandKey) :
    Reduces (Lacks gone) u (.inlined key x) (.inlined key y) :=
  h.enters .inlined .inlined (by rw [tokens_inlined, tokens_inlined]; exact h.tokens)

theorem Alike.strip {xs : List Tree} (h : Over xs x) (gone : OperandKey → Bool) :
    Alike xs (xs.map (Tree.strip gone)) x (x.strip gone) := by
  cases h with
  | leaf l => rw [Tree.strip]; exact .leaf l
  | unary op x => rw [Tree.strip]; exact .unary op _ _
  | store x y => rw [Tree.strip]; exact .store _ _ _ _
  | many op xs => rw [Tree.strip]; exact .many op _ _ (length_map _)

theorem reduces_strip (gone u : OperandKey → Bool) (x : Tree) : Reduces (Lacks gone) u x (x.strip gone) := by
  induction x using inductOver with
  | above xs x hx ih =>
    exact .alike (rowRelation_lacks gone) (forall₂_map_right_iff.2 (forall₂_same.2 ih)) (hx.strip gone)
  | reference key noIncr => rw [strip]; exact .refl (by rw [tokens_reference]; rfl)
  | enters key x y hy ih =>
    cases hy with
    | definition noIncr =>
      rw [strip]
      split
      · exact ih.inlineAt ‹_› noIncr
      · exact ih.definition ‹_› noIncr
    | inlined => rw [strip]; exact ih.inlined key

theorem tokens_strip (gone : OperandKey → Bool) (x : Tree) :
    (x.strip gone).tokens = without gone x.tokens := (reduces_strip gone gone x).tokens

theorem keys_strip (gone : OperandKey → Bool) (x : Tree) : (x.strip gone).keys.Sublist x.keys :=
  (reduces_strip gone gone x).keys

end Tree

/-! ## The run -/

namespace Pass

open Firmware.Tree
variable {w : List Token} {p q : Pass} {N : OperandKey → Int} {n : Nat} {x x' : Tree}
  {key : OperandKey} {rest xs ys : List Tree} {gone : OperandKey → Bool}

/-- The counts once the tokens `w` are counted, where `N` is what they were before: that of an
operand defined in `w` is the number of its uses there, unless it was to give way. -/
structure Counting (N : OperandKey → Int) (w : List Token) (p : Pass) : Prop where
  total : ∀ key, p.total key = if key ∈ defined w then
    if N key = -1 then -1 else 1 + (references w key : Int) else N key
  closed : ∀ key, key ∉ defined w → references w key = 0
  current : ∀ key, p.current key = 0
  placed : ∀ key, p.placed key = 0

/-- What counting relies on, before it goes through the trees `xs`. -/
structure Countable (N : OperandKey → Int) (n : Nat) (w : List Token) (xs : List Tree) (p : Pass) :
    Prop extends Rooted n xs p.table where
  counting : Counting N w p
  dominated : Token.Dominated (defined w) (xs.flatMap tokens)
  fresh : ∀ key ∈ defined (xs.flatMap tokens), key ∉ defined w ∧ N key < 0
  lone : ∀ key, .refer key ∈ xs.flatMap tokens → N key ≠ -1

/-- From `p` to `q` the trees `xs` are counted and turned into `ys`. -/
structure Counts (N : OperandKey → Int) (w : List Token) (xs ys : List Tree) (p q : Pass) :
    Prop extends Turns xs ys p q where
  counting : Counting N (w ++ xs.flatMap tokens) q

/-- Only definitions and references are counted. -/
theorem Counting.congr {v : List Token} (h : Counting N w p)
    (hc : ∀ key, q.total key = p.total key ∧ q.current key = p.current key ∧ q.placed key = p.placed key)
    (hdef : defined v = defined w) (href : ∀ key, references v key = references w key) : Counting N v q := by
  refine ⟨fun key => ?_, fun key hk => ?_, fun key => ?_, fun key => ?_⟩
  · rw [(hc key).1, h.total, hdef, href]
  · rw [href]; exact h.closed key (by rwa [← hdef])
  · rw [(hc key).2.1, h.current]
  · rw [(hc key).2.2, h.placed]

theorem Counting.updated (h : Counting N w p) (key : OperandKey) (x : Expr) :
    Counting N w (p.updated key fun o => { o with value := x }) :=
  h.congr (fun j => entry_updated_value p key j x) rfl fun _ => rfl

/-- A definition opens the count of its operand, unless that is to give way. -/
theorem Counting.define (h : Counting N w p) (hk : key ∉ defined w)
    (hself : q.total key = if N key = -1 then -1 else 1) (hne : ∀ j, j ≠ key → q.total j = p.total j)
    (hc : ∀ j, q.current j = p.current j ∧ q.placed j = p.placed j) : Counting N (w ++ [.define key]) q := by
  have hdef : defined (w ++ [.define key]) = defined w ++ [key] := defined_append _ _
  have href : ∀ j, references (w ++ [.define key]) j = references w j := by
    intro j
    rw [references_append, references_define, references_nil, Nat.add_zero]
  refine ⟨fun j => ?_, fun j hj => ?_, fun j => by rw [(hc j).1, h.current], fun j => by rw [(hc j).2, h.placed]⟩
  · rw [hdef, href]
    by_cases hj : j = key
    · rw [hj, hself, if_pos (mem_append_right _ mem_cons_self), h.closed key hk]
      rfl
    · rw [hne j hj, h.total j]
      simp only [mem_append, mem_singleton, hj, or_false]
  · rw [href]
    exact h.closed j fun hw => hj (by rw [hdef]; exact mem_append_left _ hw)

/-- A reference raises the count. -/
theorem Counting.refer (h : Counting N w p) (hlt : key < p.table.length)
    (hk : key ∈ defined w) (hN : N key ≠ -1) :
    Counting N (w ++ [.refer key])
      (p.updated key fun o => { o with totalUses := o.totalUses + 1 }) := by
  have hdef : defined (w ++ [.refer key]) = defined w := by
    rw [defined_append, defined_refer, defined_nil, append_nil]
  refine ⟨?_, ?_, ?_, ?_⟩
  · intro j
    rw [hdef, references_append]
    by_cases hj : j = key
    · subst hj
      have ht := h.total j
      rw [if_pos hk, if_neg hN] at ht
      rw [total_updated_self hlt (· + 1), ht, if_pos hk, if_neg hN, references_refer_self, references_nil]
      omega
    · rw [total_updated_ne hj, h.total j, references_refer_ne hj, references_nil, Nat.add_zero]
  · intro j hj
    rw [hdef] at hj
    have hne : j ≠ key := fun heq => hj (heq ▸ hk)
    rw [references_append, references_refer_ne hne, h.closed j hj]
    rfl
  · intro j
    rw [current_updated_total p key j (· + 1), h.current]
  · intro j
    rw [placed_updated_total p key j (· + 1), h.placed]

theorem Countable.over (h : Countable N n w [x] p) (hx : Over xs x) : Countable N n w xs p := by
  have hdom := h.dominated
  have hfresh := h.fresh
  have hlone := h.lone
  rw [flatMap_singleton] at hdom hfresh hlone
  exact { h.toRooted.over hx with
    counting := h.counting
    dominated := hx.dominated_iff.1 hdom
    fresh := by rwa [← hx.defined_eq]
    lone := fun key hk => hlone key (hx.refer_mem_iff.2 hk) }

theorem Counts.alike {y : Tree} (h : Counts N w xs ys p q) (ha : Alike xs ys x y) : Counts N w [x] [y] p q := by
  refine ⟨h.toTurns.alike ha, h.counting.congr (fun _ => ⟨rfl, rfl, rfl⟩) ?_ fun key => ?_⟩
  · rw [flatMap_singleton, defined_append, defined_append, ha.left.defined_eq]
  · rw [flatMap_singleton, references_append, references_append, ha.left.references_eq]

theorem Countable.first (h : Countable N n w (x :: rest) p) : Countable N n w [x] p := by
  have hdom := h.dominated
  have hfresh := h.fresh
  have hlone := h.lone
  rw [flatMap_cons] at hdom hfresh hlone
  rw [dominated_append] at hdom
  refine { h.toRooted.first with
    counting := h.counting
    dominated := by rw [flatMap_singleton]; exact hdom.1
    fresh := ?_
    lone := ?_ }
  · rw [flatMap_singleton]
    intro key hk
    exact hfresh key (by rw [defined_append]; exact mem_append_left _ hk)
  · rw [flatMap_singleton]
    exact fun key hk => hlone key (mem_append_left _ hk)

/-- After the first tree of a row the rest can be counted. -/
theorem Countable.next (h : Countable N n w (x :: rest) p) (hpq : Counts N w [x] [x'] p q) :
    Countable N n (w ++ x.tokens) rest q := by
  have hdom := h.dominated
  have hfresh := h.fresh
  have hlone := h.lone
  have hkeeps := hpq.keeps
  have hcounting := hpq.counting
  rw [flatMap_singleton] at hkeeps hcounting
  rw [flatMap_cons] at hdom hfresh hlone
  rw [dominated_append] at hdom
  refine { h.toRooted.rest hkeeps with
    counting := hcounting
    dominated := by rw [defined_append]; exact hdom.2
    fresh := ?_
    lone := fun key hk => hlone key (mem_append_right _ hk) }
  intro key hk
  obtain ⟨hw, hN⟩ := hfresh key (by rw [defined_append]; exact mem_append_right _ hk)
  refine ⟨?_, hN⟩
  rw [defined_append, mem_append, not_or]
  refine ⟨hw, fun hx => ?_⟩
  obtain ⟨t, ht, hd⟩ := mem_filterMap.1 hk
  obtain ⟨y, hy, ht⟩ := mem_flatMap.1 ht
  have hkey : key ∈ y.keys := (defined_sublist_keys y).subset (mem_filterMap.2 ⟨t, ht, hd⟩)
  exact h.toRooted.apart ((defined_sublist_keys x).subset hx)
    (mem_flatMap.2 ⟨y, hy, hkey⟩)

theorem Counts.cons {rest' : List Tree} {r : Pass} (h : Counts N w [x] [x'] p q)
    (h' : Counts N (w ++ x.tokens) rest rest' q r)
    (hapart : ∀ key ∈ x'.keys, key ∉ rest.flatMap Tree.keys) :
    Counts N w (x :: rest) (x' :: rest') p r := by
  refine ⟨h.toTurns.cons h'.toTurns hapart, ?_⟩
  rw [flatMap_cons, ← append_assoc]
  exact h'.counting

theorem run_countSteps {visit : Expr → PassM Expr} (hrun : ∀ x ∈ xs, ∀ w p, Countable N n w [x] p →
      ∃ q, (countStep visit x.head).run p = ((x.strip gone).head, q) ∧
        Counts N w [x] [x.strip gone] p q) (h : Countable N n w xs p) :
    ∃ q, (countSteps visit (xs.map head)).run p = ((xs.map (strip gone)).map head, q) ∧
      Counts N w xs (xs.map (strip gone)) p q := by
  induction xs generalizing w p with
  | nil =>
    refine ⟨p, rfl, Turns.refl h.stored, ?_⟩
    rw [flatMap_nil, append_nil]
    exact h.counting
  | cons x rest ih =>
    obtain ⟨q, hq, hpq⟩ := hrun x mem_cons_self w p h.first
    obtain ⟨r, hr, hqr⟩ := ih (fun y hy => hrun y (mem_cons_of_mem _ hy)) (h.next hpq)
    refine ⟨r, ?_, ?_⟩
    · rw [map_cons, countSteps, run_bind_of hq, run_bind_of hr]
      rfl
    · refine hpq.cons hqr ?_
      exact fun key hk => h.toRooted.apart ((keys_strip gone x).subset hk)

/-- An operand takes up what its counting left. -/
theorem Counts.inside {y y' : Tree} {p' : Pass} (h : Counts N w [x] [x'] p' q) (hp : Keeps [] p p')
    (hlt : key < q.table.length) (hself : key ∉ x'.keys) (hy : Enters key x y) (hy' : Enters key x' y') {v : List Token}
    (htokens : v ++ y.tokens = w ++ x.tokens) :
    Counts N v [y] [y'] p (q.updated key fun o => { o with value := x'.head }) := by
  have hcounting := h.counting
  rw [flatMap_singleton] at hcounting
  refine ⟨hp.turns (h.toTurns.inside hlt hself hy hy'), ?_⟩
  rw [flatMap_singleton, htokens]
  exact hcounting.updated key _

/-- The row stands where it did when only numbers and counts changed. -/
theorem Rooted.keeps (h : Rooted n xs p.table) (hpq : Keeps [] p q) : Rooted n xs q.table := by
  refine ⟨fun x hx => hpq.stored (h.stored x hx) fun _ _ hk => absurd hk not_mem_nil, h.below, ?_, h.nodup⟩
  rw [hpq.length]
  exact h.bound

/-- What an operand holds may be put where its definition was. -/
theorem run_inlineUse (hlt : key < q.table.length) (hself : key ∉ x.keys) (hx : Stored q.table x) :
    ∃ r, (inlineUse key x.head).run q = ((inlineAt key x).head, r) ∧ Keeps [key] q r ∧
      Stored r.table (inlineAt key x) ∧ ∀ j, r.total j = q.total j ∧ r.current j = q.current j ∧
        r.placed j = q.placed j := by
  rw [inlineUse, inlineAt]
  by_cases hc : x.head.isCompound = true
  · rw [if_pos hc, if_pos hc]
    refine ⟨q.updated key fun o => { o with value := x.head }, by rw [head_inlined]; rfl,
      keeps_updated q key _, ?_, fun j => entry_updated_value q key j _⟩
    exact Enters.inlined.stored_iff.2
      ⟨by rw [length_updated]; exact hlt, value_updated_self hlt _, stored_updated hx hself _⟩
  · rw [if_neg hc, if_neg hc]
    exact ⟨q, rfl, Keeps.mono (Keeps.refl q) fun _ hk => absurd hk not_mem_nil, hx, fun _ => ⟨rfl, rfl, rfl⟩⟩

theorem traverses_count (visit : Expr → PassM Expr) : Traverses (countStep visit) (countSteps visit) :=
  ⟨fun _ => rfl, fun _ _ => rfl, fun _ _ => rfl, fun _ _ => rfl, rfl, fun _ _ => rfl⟩

/-- The step of the pass on the expression of a tree leaves that of the stripped tree, and the uses
in the tree are counted. -/
theorem run_countStep (hgone : ∀ key, gone key = true ↔ N key = -1) {depth : Nat} (hd : n ≤ depth)
    (h : Countable N n w [x] p) :
    ∃ q, (countStep (visitor countStep depth) x.head).run p = ((x.strip gone).head, q) ∧
      Counts N w [x] [x.strip gone] p q := by
  induction x using inductOver generalizing n depth w p with
  | above xs x hx ih =>
    obtain ⟨q, hq, hpq⟩ := run_countSteps (fun x hx w p => ih x hx hd) (h.over hx)
    exact ⟨q, (traverses_count _).run_alike (hx.strip gone).heads hq, hpq.alike (hx.strip gone)⟩
  | reference key noIncr =>
    have hdom := h.dominated
    have hlone := h.lone key (by rw [flatMap_singleton, tokens_reference]; exact mem_cons_self)
    have hb := h.below _ mem_cons_self
    rw [flatMap_singleton, tokens_reference] at hdom
    rw [Below] at hb
    have hlt : key < p.table.length := Nat.lt_of_lt_of_le hb h.bound
    have hpos : ¬ (p.table.entry key).totalUses ≤ 0 := by
      have ht := h.counting.total key
      rw [if_pos hdom.1, if_neg hlone] at ht
      have htotal : (p.table.entry key).totalUses = p.total key := rfl
      omega
    refine ⟨p.updated key fun o => { o with totalUses := o.totalUses + 1 }, ?_, turns_singleton.2 ⟨?_, ?_⟩, ?_⟩
    · rw [head, countStep, run_bind_of (run_operand key p), if_neg hpos, strip, head]
      rfl
    · rw [keys_reference]
      exact keeps_updated_counts p key fun _ => rfl
    · rw [strip]
      exact stored_of_keys_eq_nil (keys_reference key noIncr)
    · rw [flatMap_singleton, tokens_reference]
      exact h.counting.refer hlt hdom.1 hlone
  | enters key x y hy ih =>
    obtain ⟨hroot, hk, hv, hself⟩ := h.toRooted.enters hy
    obtain ⟨d, rfl⟩ := Nat.exists_eq_add_of_lt (Nat.lt_of_lt_of_le hk hd)
    have hlt : key < p.table.length := Nat.lt_of_lt_of_le hk h.bound
    have hself' : key ∉ (x.strip gone).keys := fun hj => hself ((keys_strip gone x).subset hj)
    have hdom := h.dominated
    have hfresh := h.fresh
    have hlone := h.lone
    rw [flatMap_singleton] at hdom hfresh hlone
    cases hy with
    | inlined =>
      rw [tokens_inlined] at hdom hfresh hlone
      have hrow : Countable N key w [x] p := by
        refine { hroot with counting := h.counting, dominated := ?_, fresh := ?_, lone := ?_ }
        all_goals rwa [flatMap_singleton]
      obtain ⟨q, hq, hpq⟩ := ih (Nat.le_add_right key d) hrow
      refine ⟨q.updated key fun o => { o with value := (x.strip gone).head }, ?_, ?_⟩
      · rw [head_inlined, countStep, run_bind_of (run_inside (by rw [hv, visitor_succ]; exact hq)), strip, head_inlined]
        rfl
      · rw [strip]
        refine hpq.inside (Keeps.refl p) (by rw [hpq.keeps.length]; exact hlt) hself' .inlined .inlined ?_
        rw [tokens_inlined]
    | definition noIncr =>
      rw [tokens_definition] at hdom hfresh hlone
      rw [Token.Dominated] at hdom
      rw [defined_define] at hfresh
      obtain ⟨hkw, hNneg⟩ := hfresh key mem_cons_self
      have hdef : defined (w ++ [.define key]) = defined w ++ [key] := defined_append _ _
      -- inside of the operand, once its definition is counted
      have hrow : ∀ p', Keeps [] p p' → Counting N (w ++ [.define key]) p' →
          Countable N key (w ++ [.define key]) [x] p' := by
        intro p' hkeeps hcounting
        refine { Rooted.keeps hroot hkeeps with counting := hcounting, dominated := ?_, fresh := ?_, lone := ?_ }
        · rw [flatMap_singleton, hdef]
          refine hdom.mono fun j hj => ?_
          rcases mem_cons.1 hj with rfl | hj
          · exact mem_append_right _ mem_cons_self
          · exact mem_append_left _ hj
        · rw [flatMap_singleton, hdef]
          intro j hj
          obtain ⟨hjw, hjN⟩ := hfresh j (mem_cons_of_mem _ hj)
          refine ⟨?_, hjN⟩
          rw [mem_append, not_or, mem_singleton]
          exact ⟨hjw, fun heq => hself (heq ▸ (defined_sublist_keys x).subset hj)⟩
        · rw [flatMap_singleton]
          exact fun j hj => hlone j (mem_cons_of_mem _ hj)
      obtain ⟨number, p₁, hnumber, hkeeps₁, hentry⟩ := keeps_number key p
      have hlt₁ : key < p₁.table.length := by rw [hkeeps₁.length]; exact hlt
      have hcounting₁ : Counting N w p₁ := by
        refine h.counting.congr (fun j => ?_) rfl fun _ => rfl
        simp only [total, current, placed, hentry, and_self]
      have htotal : p₁.total key = N key := by
        have ht := hcounting₁.total key
        rwa [if_neg hkw] at ht
      have htotal' : (p₁.table.entry key).totalUses = N key := htotal
      have hcurrent : (p₁.table.entry key).currentUses = 0 := hcounting₁.current key
      have hvalue : (p₁.table.entry key).value = x.head := by
        rw [← Operands.value_eq_entry hlt₁, hkeeps₁.value key not_mem_nil, hv]
      have hguard : (decide ((p₁.table.entry key).totalUses < 0) &&
          (p₁.table.entry key).currentUses == 0) = true := by
        rw [htotal', hcurrent, decide_eq_true hNneg]
        rfl
      rw [head, countStep, run_bind_of hnumber, run_bind_of (run_operand key p₁), if_pos hguard, hvalue, htotal', strip]
      by_cases hN : N key = -1
      · rw [if_pos ((hgone key).2 hN), if_pos (beq_iff_eq.2 hN)]
        obtain ⟨q, hq, hpq⟩ := ih (Nat.le_add_right key d) (hrow p₁ hkeeps₁ (hcounting₁.define hkw
          (by rw [htotal, if_pos hN, hN]) (fun _ _ => rfl) fun _ => ⟨rfl, rfl⟩))
        obtain ⟨hkeeps, hx⟩ := turns_singleton.1 hpq.toTurns
        obtain ⟨r, hr, hqr, hstored, hcounts⟩ := run_inlineUse (by rw [hkeeps.length]; exact hlt₁) hself' hx
        refine ⟨r, ?_, turns_singleton.2 ⟨?_, hstored⟩, hpq.counting.congr hcounts ?_ fun j => ?_⟩
        · rw [visitor_succ, run_bind_of hq, hr]
        · rw [keys_definition]
          refine ((hkeeps₁.trans hkeeps).trans hqr).mono fun j hj => ?_
          rcases mem_append.1 hj with hj | hj
          · exact mem_cons_of_mem _ hj
          · rw [mem_singleton.1 hj]; exact mem_cons_self
        · rw [flatMap_singleton, flatMap_singleton, tokens_definition, append_assoc]; rfl
        · rw [flatMap_singleton, flatMap_singleton, tokens_definition, append_assoc]; rfl
      · rw [if_neg fun hg => hN ((hgone key).1 hg), if_neg fun hb => hN (beq_iff_eq.1 hb)]
        have hkeeps₂ : Keeps [] p₁ (p₁.updated key fun o => { o with totalUses := 1 }) :=
          keeps_updated_counts p₁ key fun _ => rfl
        have hcounting₂ := hcounting₁.define (q := p₁.updated key fun o => { o with totalUses := 1 }) hkw
          (by rw [if_neg hN, total_updated_self hlt₁ fun _ => 1]) (fun j hj => total_updated_ne hj _)
          fun j => ⟨current_updated_total p₁ key j fun _ => 1, placed_updated_total p₁ key j fun _ => 1⟩
        obtain ⟨q, hq, hpq⟩ := ih (Nat.le_add_right key d) (hrow _ (hkeeps₁.trans hkeeps₂) hcounting₂)
        have hvisit : (visitor countStep (key + d + 1)
            ((p₁.updated key fun o => { o with totalUses := 1 }).table.value key)).run
            (p₁.updated key fun o => { o with totalUses := 1 }) = ((x.strip gone).head, q) := by
          rw [hkeeps₂.value key not_mem_nil, hkeeps₁.value key not_mem_nil, hv, visitor_succ]
          exact hq
        refine ⟨q.updated key fun o => { o with value := (x.strip gone).head }, ?_, ?_⟩
        · rw [run_bind_of (run_update key _ p₁), run_bind_of (run_inside hvisit), head]
          rfl
        · refine hpq.inside (hkeeps₁.trans hkeeps₂) (by rw [hpq.keeps.length, hkeeps₂.length]; exact hlt₁) hself'
            (.definition noIncr) (.definition noIncr) ?_
          rw [tokens_definition, append_assoc]
          rfl

/-- Counting in the expression of a tree leaves that of the stripped tree. -/
theorem run_count (hgone : ∀ key, gone key = true ↔ N key = -1)
    (h : Countable N p.table.length w [x] p) :
    ∃ q, (count x.head).run p = ((x.strip gone).head, q) ∧ Counts N w [x] [x.strip gone] p q := by
  rw [count, run_run]
  exact run_countStep hgone (Nat.le_refl _) h

end Pass
end Firmware
