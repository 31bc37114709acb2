import Firmware.Proofs.Procedure.Simplify

/-!
# Running simplification

The pass that simplifies leaves the simplified tree (`run_simplify`). It works on a row of trees
from left to right; `done` are the trees of the row that it has been through, in which the operands
that the rest refers to are defined and settled.
-/

namespace Firmware

open Token
namespace Pass

open Firmware.Tree
open List hiding head
variable {p q r : Pass} {x : Tree} {u : OperandKey → Bool} {n : Nat} {done rest xs : List Tree}
  {ts us : List Token} {key : OperandKey} {op : UnaryOp}

/-! ## Counts of dropped references -/

/-- From `p` to `q` every reference of `ts` that is not in `us` is taken off the count of its
operand, as long as that has one. -/
structure Releases (ts us : List Token) (p q : Pass) : Prop where
  fewer : ∀ key, references us key ≤ references ts key
  counted : ∀ key, 0 < p.total key →
    q.total key = max 0 (p.total key + references us key - references ts key)
  uncounted : ∀ key, p.total key ≤ 0 → q.total key = p.total key
  current : ∀ key, q.current key = p.current key
  placed : ∀ key, q.placed key = p.placed key

theorem Releases.refl (ts : List Token) (p : Pass) : Releases ts ts p p :=
  ⟨fun _ => Nat.le_refl _, fun _ hp => by omega, fun _ _ => rfl, fun _ => rfl, fun _ => rfl⟩

/-- What is released first and what is released then is released together. -/
theorem Releases.then {vs : List Token} (h : Releases ts us p q) (h' : Releases us vs q r) :
    Releases ts vs p r := by
  refine ⟨fun key => Nat.le_trans (h'.fewer key) (h.fewer key), ?_, ?_, fun key => by rw [h'.current, h.current],
    fun key => by rw [h'.placed, h.placed]⟩
  · intro key hp
    have hc := h.counted key hp
    have hle := h'.fewer key
    rcases Int.lt_or_le 0 (q.total key) with hq | hq
    · have hc' := h'.counted key hq
      omega
    · -- the count is used up, and stays so
      have hc' := h'.uncounted key hq
      omega
  · intro key hp
    have hq := h.uncounted key hp
    rw [h'.uncounted key (by omega), hq]

/-- Only references matter. -/
theorem Releases.congr {ts' us' : List Token} (h : Releases ts us p q)
    (ht : ∀ key, references ts' key = references ts key)
    (hu : ∀ key, references us' key = references us key) : Releases ts' us' p q :=
  ⟨fun key => by rw [ht, hu]; exact h.fewer key, fun key hp => by rw [ht, hu]; exact h.counted key hp,
    h.uncounted, h.current, h.placed⟩

/-- What stands in front of a row and behind it stays. -/
theorem Releases.append (h : Releases ts us p q) (vs ws : List Token) :
    Releases (vs ++ ts ++ ws) (vs ++ us ++ ws) p q := by
  refine ⟨?_, ?_, h.uncounted, h.current, h.placed⟩
  · intro key
    have hle := h.fewer key
    simp only [references_append]
    omega
  · intro key hp
    have hc := h.counted key hp
    simp only [references_append]
    omega

theorem Releases.trans {vs ws : List Token} (h : Releases ts us p q) (h' : Releases vs ws q r) :
    Releases (ts ++ vs) (us ++ ws) p r := by
  have hfirst := h.append [] vs
  have hnext := h'.append us []
  rw [append_nil, append_nil] at hnext
  exact hfirst.then hnext

/-- Changing what an operand holds releases nothing. -/
theorem Releases.updated (h : Releases ts us p q) (key : OperandKey) (x : Expr) :
    Releases ts us p (q.updated key fun o => { o with value := x }) := by
  have hcounts := entry_updated_value q key
  refine ⟨h.fewer, ?_, ?_, ?_, ?_⟩
  · intro j hp
    rw [(hcounts j x).1]
    exact h.counted j hp
  · intro j hp
    rw [(hcounts j x).1]
    exact h.uncounted j hp
  · intro j
    rw [(hcounts j x).2.1, h.current]
  · intro j
    rw [(hcounts j x).2.2, h.placed]

/-! ## Dropping items -/

/-- Taking back the use of a reference. -/
theorem run_release {noIncr : Bool} (hk : key < p.table.length) :
    ∃ q, (release (.reference key noIncr)).run p = ((), q) ∧ Keeps [] p q ∧ Releases [.refer key] [] p q := by
  refine ⟨p.updated key fun o =>
    if 0 < o.totalUses then { o with totalUses := o.totalUses - 1 } else o, rfl,
    keeps_updated_counts p key ?_, ?_⟩
  · intro o
    split
    · rfl
    · rfl
  · have hself : ∀ j, j ≠ key → (p.updated key fun o =>
        if 0 < o.totalUses then { o with totalUses := o.totalUses - 1 } else o).entry j =
        p.entry j := fun j hj => entry_updated_ne hj _
    refine ⟨fun j => Nat.zero_le _, ?_, ?_, ?_, ?_⟩
    · intro j hp
      by_cases hj : j = key
      · subst hj
        have hp' : 0 < (p.table.entry j).totalUses := hp
        rw [references_refer_self, total, entry_updated_self hk, if_pos hp']
        simp only [Operand.unnumbered, total, entry, references_nil]
        omega
      · have hsame : (p.updated key _).total j = p.total j := congrArg Operand.totalUses (hself j hj)
        rw [references_refer_ne hj, references_nil, hsame]
        omega
    · intro j hp
      by_cases hj : j = key
      · subst hj
        have hp' : ¬ 0 < (p.table.entry j).totalUses := Int.not_lt.2 hp
        rw [total, entry_updated_self hk, if_neg hp']
        rfl
      · rw [total, hself j hj, total]
    · intro j
      by_cases hj : j = key
      · subst hj
        rw [current, entry_updated_self hk]
        split
        · rfl
        · rfl
      · rw [current, hself j hj, current]
    · intro j
      by_cases hj : j = key
      · subst hj
        rw [placed, entry_updated_self hk]
        split
        · rfl
        · rfl
      · rw [placed, hself j hj, placed]

/-- Dropping an item takes back the use that it is, if it is one. -/
theorem run_release_pure (hx : x.head.isPure = true) (hb : x.Below n) (hn : n ≤ p.table.length) :
    ∃ q, (release x.head).run p = ((), q) ∧ Keeps [] p q ∧ Releases x.tokens [] p q := by
  rcases (pure_cases hx).2 with ⟨ht, hne⟩ | ⟨key, noIncr, rfl⟩
  · refine ⟨p, ?_, Keeps.refl p, by rw [ht]; exact Releases.refl [] p⟩
    cases hh : x.head with
    | reference key noIncr => exact absurd hh (hne key noIncr)
    | _ => rfl
  · rw [Below] at hb
    rw [tokens_reference, head]
    exact run_release (Nat.lt_of_lt_of_le hb hn)

theorem run_dropItems (hb : ∀ x ∈ xs, x.Below n) (hn : n ≤ p.table.length) :
    ∃ q, (Pass.dropItems (xs.map head)).run p = ((Tree.dropItems xs).map head, q) ∧
      Keeps [] p q ∧ Releases (xs.flatMap tokens) ((Tree.dropItems xs).flatMap tokens) p q := by
  induction xs generalizing p with
  | nil => exact ⟨p, rfl, Keeps.refl p, Releases.refl [] p⟩
  | cons x rest ih =>
    cases rest with
    | nil => exact ⟨p, rfl, Keeps.refl p, Releases.refl _ p⟩
    | cons y rest =>
      have hbrest : ∀ z ∈ y :: rest, z.Below n := fun z hz => hb z (mem_cons_of_mem _ hz)
      have hdrop : Tree.dropItems (x :: y :: rest) = if x.head.isPure then Tree.dropItems (y :: rest)
          else x :: Tree.dropItems (y :: rest) := by
        rw [Tree.dropItems]
        exact cons_ne_nil _ _
      have hrun : Pass.dropItems ((x :: y :: rest).map head) = (do
          if x.head.isPure then
            release x.head
            Pass.dropItems ((y :: rest).map head)
          else
            let rest ← Pass.dropItems ((y :: rest).map head)
            return x.head :: rest) := by
        rw [map_cons, map_cons, Pass.dropItems]
        exact cons_ne_nil _ _
      rw [hrun, hdrop]
      by_cases hx : x.head.isPure = true
      · rw [if_pos hx, if_pos hx]
        obtain ⟨q, hq, hkeeps, hrel⟩ := run_release_pure hx (hb x mem_cons_self) hn
        obtain ⟨r, hr, hkeeps', hrel'⟩ := ih hbrest (by rw [hkeeps.length]; exact hn)
        refine ⟨r, by rw [run_bind_of hq, hr], hkeeps.trans hkeeps', ?_⟩
        rw [flatMap_cons]
        exact hrel.trans hrel'
      · rw [if_neg hx, if_neg hx]
        obtain ⟨r, hr, hkeeps', hrel'⟩ := ih hbrest hn
        refine ⟨r, by rw [run_bind_of hr]; rfl, hkeeps', ?_⟩
        rw [flatMap_cons, flatMap_cons]
        exact (Releases.refl x.tokens p).trans hrel'

/-! ## Rows that can be simplified -/

/-- What simplification relies on, before it goes through the trees `xs`. -/
structure Ready (u : OperandKey → Bool) (n : Nat) (done xs : List Tree) (p : Pass) : Prop
    extends Rooted n xs p.table where
  settled : Settled u p.table done
  fresh : ∀ key ∈ xs.flatMap Tree.keys, key ∉ done.flatMap Tree.keys
  dominated : Token.Dominated (done.flatMap Tree.keys) (xs.flatMap tokens)
  agrees : ∀ x ∈ xs, Agrees u x

/-- From `p` to `q` the trees `xs` are turned into `ys`, and references that go are released. -/
structure Simplifies (xs ys : List Tree) (p q : Pass) : Prop extends Turns xs ys p q where
  releases : Releases (xs.flatMap tokens) (ys.flatMap tokens) p q

/-- Parts of a row that can be simplified can be. -/
theorem Ready.part {m : Nat} {ys : List Tree} (h : Ready u n done xs p)
    (hroot : Rooted m ys p.table) (hkeys : ∀ key ∈ ys.flatMap Tree.keys, key ∈ xs.flatMap Tree.keys)
    (hdom : Token.Dominated (done.flatMap Tree.keys) (ys.flatMap tokens))
    (hagrees : ∀ y ∈ ys, Agrees u y) : Ready u m done ys p :=
  { hroot with
    settled := h.settled
    fresh := fun key hk => h.fresh key (hkeys key hk)
    dominated := hdom
    agrees := hagrees }

theorem Ready.over (h : Ready u n done [x] p) (hx : Over xs x) : Ready u n done xs p := by
  have hd := h.dominated
  rw [flatMap_singleton] at hd
  refine h.part (h.toRooted.over hx) ?_ (hx.dominated_iff.1 hd) (hx.agrees_iff.1 (h.agrees x mem_cons_self))
  rw [flatMap_singleton, hx.keys_eq]
  exact fun _ hk => hk

theorem Ready.enters {y : Tree} (h : Ready u n done [y] p) (hy : Enters key x y) : Ready u key done [x] p := by
  have hroot := (h.toRooted.enters hy).1
  have hd := h.dominated
  rw [flatMap_singleton] at hd
  refine h.part hroot ?_ ?_ (forall_mem_singleton.2 (hy.agrees_iff.1 (h.agrees y mem_cons_self)).2)
  · rw [flatMap_singleton, flatMap_singleton, hy.keys_eq]
    exact fun _ hk => mem_cons_of_mem _ hk
  · rw [flatMap_singleton]
    cases hy with
    | definition noIncr =>
      rw [tokens_definition, Token.Dominated] at hd
      refine hd.of_mem fun j hj hr => ?_
      rcases mem_cons.1 hj with rfl | hj
      · exact absurd ((hroot.below x mem_cons_self).lt_of_refer hr) (Nat.lt_irrefl j)
      · exact hj
    | inlined => rwa [tokens_inlined] at hd

theorem Ready.first (h : Ready u n done (x :: rest) p) : Ready u n done [x] p := by
  have hd := h.dominated
  rw [flatMap_cons, dominated_append] at hd
  refine h.part h.toRooted.first ?_ ?_ ?_
  · intro key hk
    rw [flatMap_singleton] at hk
    rw [flatMap_cons]
    exact mem_append_left _ hk
  · rw [flatMap_singleton]
    exact hd.1
  · rw [forall_mem_singleton]
    exact h.agrees x mem_cons_self

/-- Once a tree is simplified its operands are settled. -/
theorem Ready.settled_next (h : Ready u n done [x] p) (hpq : Simplifies [x] [x.simplify u] p q) :
    Settled u q.table (done ++ [x.simplify u]) := by
  have hkeeps := hpq.keeps
  have hfresh := h.fresh
  have hdom := h.dominated
  rw [flatMap_singleton] at hkeeps hfresh hdom
  have hb : (x.simplify u).Below n := (h.below x mem_cons_self).simplify u
  refine Settled.snoc (h.settled.frame hkeeps.length ?_) (hpq.stored _ mem_cons_self)
    (hb.mono ?_) (tidy_simplify (h.agrees x mem_cons_self)).2.settles ?_
  · exact fun key hk => hkeeps.value key fun hk' => hfresh key hk' hk
  · rw [hkeeps.length]
    exact h.bound
  · intro key hk
    rcases ((thins_simplify u x).dominated hdom).mem hk with hk | hk
    · exact .inl hk
    · exact .inr ((defined_sublist_keys _).subset hk)

/-- After the first tree of a row the rest can be simplified. -/
theorem Ready.next (h : Ready u n done (x :: rest) p) (hpq : Simplifies [x] [x.simplify u] p q) :
    Ready u n (done ++ [x.simplify u]) rest q := by
  have hkeeps := hpq.keeps
  have hdom := h.dominated
  rw [flatMap_singleton] at hkeeps
  rw [flatMap_cons, dominated_append] at hdom
  have hdone : (done ++ [x.simplify u]).flatMap Tree.keys = done.flatMap Tree.keys ++ (x.simplify u).keys := by
    rw [flatMap_append, flatMap_singleton]
  refine { h.toRooted.rest hkeeps with
    settled := h.first.settled_next hpq
    fresh := ?_
    dominated := ?_
    agrees := fun y hy => h.agrees y (mem_cons_of_mem _ hy) }
  · intro key hk hmem
    rw [hdone, mem_append] at hmem
    rcases hmem with hmem | hmem
    · exact h.fresh key (by rw [flatMap_cons]; exact mem_append_right _ hk) hmem
    · exact h.toRooted.apart ((keys_simplify u x).subset hmem) hk
  · refine hdom.2.mono ?_
    intro key hk
    rw [hdone, mem_append]
    rcases mem_append.1 hk with hk | hk
    · exact .inl hk
    · rw [← defined_simplify u x] at hk
      exact .inr ((defined_sublist_keys _).subset hk)

theorem Simplifies.cons {x' : Tree} {rest' : List Tree} (h : Simplifies [x] [x'] p q)
    (h' : Simplifies rest rest' q r) (hapart : ∀ key ∈ x'.keys, key ∉ rest.flatMap Tree.keys) :
    Simplifies (x :: rest) (x' :: rest') p r := by
  have hrel := h.releases
  rw [flatMap_singleton, flatMap_singleton] at hrel
  refine ⟨h.toTurns.cons h'.toTurns hapart, ?_⟩
  rw [flatMap_cons, flatMap_cons]
  exact hrel.trans h'.releases

theorem Simplifies.nil (p : Pass) : Simplifies [] [] p p :=
  ⟨Turns.refl fun _ h => absurd h not_mem_nil, Releases.refl [] p⟩

theorem Simplifies.alike {y : Tree} {ys : List Tree} (h : Simplifies xs ys p q) (ha : Alike xs ys x y) :
    Simplifies [x] [y] p q := by
  refine ⟨h.toTurns.alike ha, ?_⟩
  rw [flatMap_singleton, flatMap_singleton]
  exact h.releases.congr ha.left.references_eq ha.right.references_eq

/-! ## The run -/

theorem run_incremented (hx : Stored p.table x) : (Pass.incremented x.head).run p = (x.incremented.map head, p) := by
  cases x with
  | unary op y => rw [head]; cases op <;> rfl
  | inlined key z =>
    obtain ⟨_, hv, _⟩ := Enters.inlined.stored_iff.1 hx
    rw [head, Pass.incremented, run_bind_of (run_value key p), hv]
    cases z with
    | unary op y => rw [head]; cases op <;> rfl
    | _ => rw [head]; rfl
  | _ => rw [head]; rfl

theorem run_collapsed (h : Settled u p.table done) (op : UnaryOp) (hx : x ∈ done) :
    (collapsed op x.head).run p = ((collapse u op x).map head, p) := by
  have hu := h.isUncounted_eq hx
  cases op with
  | incr =>
    show ((if x.head.isUncounted p.table then some x.head else none), p) = _
    rw [hu, collapse]
    split
    · rfl
    · rfl
  | decr =>
    show ((if x.head.isUncounted p.table then pure (some x.head)
      else Pass.incremented x.head : PassM (Option Expr))).run p = _
    rw [hu, collapse]
    split
    · rfl
    · exact run_incremented (h.stored x hx)
  | field name index => rfl
  | instanceOf className => rfl

/-- What an operator gives way to is in the table where the operand is. -/
theorem stored_collapse (u : OperandKey → Bool) (op : UnaryOp) {t : Operands} (h : Stored t x) :
    Stored t ((collapse u op x).getD (.unary op x)) := by
  cases hc : collapse u op x with
  | none => rw [Option.getD_none]; exact stored_unary.2 h
  | some y =>
    rw [Option.getD_some]
    refine collapse_induct hc h (fun z hz => stored_unary.1 hz) ?_
    exact fun key z hz => (Enters.inlined.stored_iff.1 hz).2.2

/-- An operator over a simplified operand may give way. -/
theorem Simplifies.collapse {y : Tree} (h : Simplifies [y] [.unary op x] p q) :
    Simplifies [y] [(collapse u op x).getD (.unary op x)] p q := by
  obtain ⟨hkeeps, hstored⟩ := turns_singleton.1 h.toTurns
  have hrel := h.releases
  rw [flatMap_singleton, flatMap_singleton] at hrel
  refine ⟨turns_singleton.2 ⟨hkeeps, stored_collapse u op (stored_unary.1 hstored)⟩, ?_⟩
  rw [flatMap_singleton, flatMap_singleton]
  refine hrel.congr (fun _ => rfl) fun j => ?_
  cases hc : Tree.collapse u op x with
  | none => rfl
  | some z => rw [Option.getD_some, tokens_of_collapse hc, (Alike.unary op x x).references_eq, flatMap_singleton]

theorem run_simplifySteps {visit : Expr → PassM Expr}
    (hrun : ∀ x ∈ xs, ∀ done p, Ready u n done [x] p →
      ∃ q, (simplifyStep visit x.head).run p = ((x.simplify u).head, q) ∧
        Simplifies [x] [x.simplify u] p q) (h : Ready u n done xs p) :
    ∃ q, (simplifySteps visit (xs.map head)).run p = ((xs.map (Tree.simplify u)).map head, q) ∧
      Simplifies xs (xs.map (Tree.simplify u)) p q := by
  induction xs generalizing done p with
  | nil => exact ⟨p, rfl, Simplifies.nil p⟩
  | cons x rest ih =>
    obtain ⟨q, hq, hpq⟩ := hrun x mem_cons_self done p h.first
    obtain ⟨r, hr, hqr⟩ := ih (fun y hy => hrun y (mem_cons_of_mem _ hy)) (h.next hpq)
    refine ⟨r, ?_, ?_⟩
    · rw [map_cons, simplifySteps, run_bind_of hq, run_bind_of hr]
      rfl
    · exact hpq.cons hqr fun key hk => h.toRooted.apart ((keys_simplify u x).subset hk)

theorem run_collapseMany (op : ManyOp) (hb : ∀ x ∈ xs, x.Below n) (hs : ∀ x ∈ xs, Stored p.table x)
    (hn : n ≤ p.table.length) :
    ∃ q, (Pass.collapseMany op (xs.map head)).run p = ((Tree.collapseMany op xs).head, q) ∧
      Keeps [] p q ∧ Stored q.table (Tree.collapseMany op xs) ∧
      Releases (xs.flatMap tokens) (Tree.collapseMany op xs).tokens p q := by
  have hother : ∀ op' : ManyOp, Stored p.table (.many op' xs) ∧
      Releases (xs.flatMap tokens) (Tree.many op' xs).tokens p p := by
    intro op'
    refine ⟨(Alike.many op' xs xs rfl).stored_iff.2 hs, (Releases.refl _ p).congr (fun _ => rfl) fun key => ?_⟩
    rw [tokens_many, references_effect]
  cases op with
  | sequence =>
    obtain ⟨q, hq, hkeeps, hrel⟩ := run_dropItems hb hn
    refine ⟨q, ?_, hkeeps, ?_, hrel.congr (fun _ => rfl) fun key => ?_⟩
    · rw [Pass.collapseMany, run_bind_of hq, Tree.collapseMany, head]
      rfl
    · rw [Tree.collapseMany]
      refine (Alike.many _ _ _ rfl).stored_iff.2 fun x hx => ?_
      exact hkeeps.stored (hs x ((dropItems_sublist xs).subset hx))
        fun _ _ h => absurd h not_mem_nil
    · rw [Tree.collapseMany, tokens_many, references_effect]
  | _ =>
    refine ⟨p, ?_, Keeps.refl p, hother _⟩
    simp only [Tree.collapseMany, head]
    rfl

/-- What an operand holds may stand in its place. -/
theorem Simplifies.of_enters {y z : Tree} (h : Simplifies [z] [y] p q) (hy : Enters key x y) : Simplifies [z] [x] p q := by
  have hrel := h.releases
  rw [flatMap_singleton, flatMap_singleton] at hrel
  refine ⟨⟨h.keeps, forall_mem_singleton.2 (hy.stored_iff.1 (h.stored y mem_cons_self)).2.2⟩, ?_⟩
  rw [flatMap_singleton, flatMap_singleton]
  exact hrel.congr (fun _ => rfl) fun j => (hy.references_eq j).symm

/-- An operand takes up what it was simplified to. -/
theorem Simplifies.inside {x' y y' : Tree} (h : Simplifies [x] [x'] p q)
    (hlt : key < q.table.length) (hself : key ∉ x'.keys) (hy : Enters key x y) (hy' : Enters key x' y') :
    Simplifies [y] [y'] p (q.updated key fun o => { o with value := x'.head }) := by
  have hrel := h.releases
  rw [flatMap_singleton, flatMap_singleton] at hrel
  refine ⟨h.toTurns.inside hlt hself hy hy', ?_⟩
  rw [flatMap_singleton, flatMap_singleton]
  exact (hrel.updated key _).congr hy.references_eq hy'.references_eq

/-- The step of the pass on the expression of a tree leaves that of the simplified tree. -/
theorem run_simplifyStep {depth : Nat} (hd : n ≤ depth) (h : Ready u n done [x] p) :
    ∃ q, (simplifyStep (visitor simplifyStep depth) x.head).run p = ((x.simplify u).head, q) ∧
      Simplifies [x] [x.simplify u] p q := by
  induction x using inductInlined generalizing n depth done p with
  | unary op x ih =>
    have hrow := h.over (.unary op x x)
    obtain ⟨q, hq, hpq⟩ := ih hd hrow
    have hcol := run_collapsed (hrow.settled_next hpq) op (mem_append_right done mem_cons_self)
    refine ⟨q, ?_, by rw [Tree.simplify]; exact (hpq.alike (.unary op x (x.simplify u))).collapse⟩
    rw [head, simplifyStep, run_bind_of hq, run_bind_of hcol, Tree.simplify]
    cases collapse u op (x.simplify u) with
    | none => rw [Option.getD_none, head]; rfl
    | some y => rfl
  | store target value iht ihv =>
    have hrow := h.over (.store target value target value)
    obtain ⟨q, hq, hpq⟩ := iht hd hrow.first
    obtain ⟨r, hr, hqr⟩ := ihv hd (hrow.next hpq)
    have hsim := hpq.cons hqr fun key hk => hrow.toRooted.apart ((keys_simplify u target).subset hk)
    refine ⟨r, ?_, by rw [Tree.simplify]; exact hsim.alike (.store _ _ _ _)⟩
    rw [head, simplifyStep, run_bind_of hq, run_bind_of hr, Tree.simplify, head]
    rfl
  | many op args ih =>
    have hrow := h.over (.many op args args rfl)
    obtain ⟨q, hq, hpq⟩ := run_simplifySteps (fun x hx done p => ih x hx hd) hrow
    have hb : ∀ y ∈ args.map (Tree.simplify u), y.Below n :=
      forall_mem_map.2 fun x hx => (hrow.below x hx).simplify u
    obtain ⟨r, hr, hkeeps, hstored, hrel⟩ := run_collapseMany op hb hpq.stored
      (by rw [hpq.keeps.length]; exact hrow.bound)
    refine ⟨r, ?_, turns_singleton.2 ⟨?_, ?_⟩, ?_⟩
    · rw [head, simplifyStep, run_bind_of hq, hr, Tree.simplify]
    · rw [keys_many]
      have hall := hpq.keeps.trans hkeeps
      rwa [append_nil] at hall
    · rw [Tree.simplify]
      exact hstored
    · rw [flatMap_singleton, flatMap_singleton, tokens_many, Tree.simplify]
      refine (hpq.releases.then hrel).congr ?_ fun _ => rfl
      exact fun key => references_effect _ _ key
  | definition key noIncr x ih =>
    obtain ⟨_, hk, hv, hself⟩ := h.toRooted.enters (.definition noIncr)
    obtain ⟨d, rfl⟩ := Nat.exists_eq_add_of_lt (Nat.lt_of_lt_of_le hk hd)
    obtain ⟨q, hq, hpq⟩ := ih (Nat.le_add_right key d) (h.enters (.definition noIncr))
    have hlt : key < q.table.length := by
      rw [hpq.keeps.length]
      exact Nat.lt_of_lt_of_le hk h.bound
    refine ⟨q.updated key fun o => { o with value := (x.simplify u).head }, ?_, ?_⟩
    · rw [head, simplifyStep, run_bind_of (run_inside (by rw [hv, visitor_succ]; exact hq)), Tree.simplify, head]
      rfl
    · rw [Tree.simplify]
      exact hpq.inside hlt (fun hj => hself ((keys_simplify u x).subset hj)) (.definition noIncr) (.definition noIncr)
  | inlinedUnary key op x ih =>
    obtain ⟨_, hk, hv, hself⟩ := h.toRooted.enters .inlined
    rw [head] at hv
    rw [keys_unary] at hself
    obtain ⟨d, rfl⟩ := Nat.exists_eq_add_of_lt (Nat.lt_of_lt_of_le hk hd)
    have hready := (h.enters .inlined).over (.unary op x x)
    obtain ⟨q, hq, hpq⟩ := ih (Nat.le_add_right key d) hready
    have hself' : key ∉ (x.simplify u).keys := fun hj => hself ((keys_simplify u x).subset hj)
    have hlt : key < q.table.length := by
      rw [hpq.keeps.length]
      exact Nat.lt_of_lt_of_le hk h.bound
    -- the operand keeps its operator, whatever stands in its place afterwards
    have hnone := (hpq.alike (.unary op x (x.simplify u))).inside hlt (by rw [keys_unary]; exact hself') .inlined .inlined
    have hkept := keeps_updated q key fun o =>
      { o with value := (Tree.unary op (x.simplify u)).head }
    have hfresh : key ∉ done.flatMap Tree.keys := by
      refine h.fresh key ?_
      rw [flatMap_singleton, keys_inlined]
      exact mem_cons_self
    have hsettled := (hready.settled_next hpq).frame hkept.length (by
      intro j hj
      refine hkept.value j fun hmem => ?_
      rw [mem_singleton.1 hmem, flatMap_append, flatMap_singleton, mem_append] at hj
      exact hj.elim hfresh hself')
    have hcol := run_collapsed hsettled op (mem_append_right done mem_cons_self)
    refine ⟨q.updated key fun o => { o with value := (Tree.unary op (x.simplify u)).head }, ?_, ?_⟩
    · rw [head_inlined, simplifyStep, run_bind_of (run_value key p), hv]
      show (do
        let x ← visitor simplifyStep (key + d + 1) x.head
        update key fun o => { o with value := .unary op x }
        return (← collapsed op x).getD (.inlined key) : PassM Expr).run p = _
      rw [visitor_succ, run_bind_of hq, run_bind_of (run_update key _ q), ← head_unary, run_bind_of hcol, Tree.simplify]
      cases collapse u op (x.simplify u) with
      | none => rw [Option.getD_none, head_inlined]; rfl
      | some y => rfl
    · rw [Tree.simplify]
      cases hc : collapse u op (x.simplify u) with
      | none => exact hnone
      | some y =>
        have hgone := (hnone.of_enters .inlined).collapse (u := u)
        rw [hc] at hgone
        exact hgone
  | inlined key x hne ih =>
    obtain ⟨_, hk, hv, hself⟩ := h.toRooted.enters .inlined
    obtain ⟨d, rfl⟩ := Nat.exists_eq_add_of_lt (Nat.lt_of_lt_of_le hk hd)
    obtain ⟨q, hq, hpq⟩ := ih (Nat.le_add_right key d) (h.enters .inlined)
    have hlt : key < q.table.length := by
      rw [hpq.keeps.length]
      exact Nat.lt_of_lt_of_le hk h.bound
    have hinside : (simplifyStep (visitor simplifyStep (key + d + 1)) (.inlined key)).run p = (do
          inside (visitor simplifyStep (key + d + 1)) key
          return .inlined key : PassM Expr).run p := by
      rw [simplifyStep, run_bind_of (run_value key p), hv]
      cases x with
      | unary op y => exact absurd rfl (hne op y)
      | _ => rw [head]
    refine ⟨q.updated key fun o => { o with value := (x.simplify u).head }, ?_, ?_⟩
    · rw [head, hinside, run_bind_of (run_inside (by rw [hv, visitor_succ]; exact hq)), simplify_inlined hne, head]
      rfl
    · rw [simplify_inlined hne]
      exact hpq.inside hlt (fun hj => hself ((keys_simplify u x).subset hj)) .inlined .inlined
  | _ =>
    rw [Tree.simplify]
    exact ⟨p, by rw [head]; rfl, Turns.refl h.stored, Releases.refl _ p⟩

/-- Simplifying the expression of a tree leaves that of the simplified tree. -/
theorem run_simplify (h : Ready u p.table.length done [x] p) :
    ∃ q, (Pass.simplify x.head).run p = ((x.simplify u).head, q) ∧ Simplifies [x] [x.simplify u] p q := by
  rw [Pass.simplify, run_run]
  exact run_simplifyStep (Nat.le_refl _) h

end Pass
end Firmware
