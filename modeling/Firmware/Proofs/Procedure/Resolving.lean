import Firmware.Proofs.Procedure.Rows
import Firmware.Proofs.Procedure.Sharing

/-!
# Resolving a body

Resolving a body in which no name is missing succeeds with the last of its rows (`resolve_eq_ok`),
and otherwise fails at the first name that is missing (`resolve_eq_error`).
-/

namespace Firmware

/-! ## Stages -/

namespace Pass

open Firmware.Tree List

variable {body : Body} {t : Operands} {p : Pass}

theorem introducing_copies (h : body.IsBuilt t) (n : Nat) : Introducing t [] { scope := ⟨t.copies, n⟩ } := by
  have hentry : ∀ key, t.copies.entry key = { t.entry key with placedUses := 0, number := none } := by
    intro key
    rw [Operands.entry, Operands.copies, getElem?_map, Operands.entry]
    cases t[key]? <;> rfl
  have hzero : ∀ key, (t.entry key).totalUses = 0 ∧ (t.entry key).currentUses = 0 := by
    intro key
    rw [Operands.entry]
    cases hk : t[key]? with
    | none => exact ⟨rfl, rfl⟩
    | some o => exact h.fresh o (mem_of_getElem? hk)
  refine ⟨length_map _, ?_, ?_, fun _ hk => absurd hk not_mem_nil, ?_, ?_⟩
  · intro key _
    rw [Operands.value, Operands.value, Operands.copies, getElem?_map]
    cases t[key]? <;> rfl
  · intro key _
    rw [Pass.total, Pass.entry, hentry]
    exact (hzero key).1
  · intro key
    rw [Pass.current, Pass.entry, hentry]
    exact (hzero key).2
  · intro key
    rw [Pass.placed, Pass.entry, hentry]
    rfl

/-- Definitions are placed. -/
theorem run_placeDefinitions (h : body.IsBuilt t) (hp : Introducing t [] p) :
    ∃ q, (Procedure.placeDefinitions body).run p = ((body.placed t).map Line.toStmt, q) ∧
      q.failure = p.failure ∧ q.table.length = t.length ∧
      Countable (fun key => -(Token.uses (Line.tokens (body.unfolded t)) key : Int)) t.length []
        (Line.trees (body.placed t)) q := by
  obtain ⟨hfits, htrees⟩ := Body.fits_unfolded t body
  obtain ⟨q, hruns, hintro, hsettled, hfail, htotal⟩ :=
    runs_place h.operands h.exprs hp (Settled.nil _ _) fun key => Iff.rfl
  rw [nil_append, ← htrees] at hsettled
  refine ⟨q, ?_, hfail, hintro.length, ?_⟩
  · rw [Procedure.placeDefinitions, run_bind_of (run_mapExprM hruns), Body.lines_map]
    refine congrArg (·, q) (Line.dropPure_map_toStmt ?_)
    intro l hl
    obtain ⟨l₀, hl₀, rfl⟩ := mem_map.1 hl
    exact (hfits l₀ hl₀).mapTree _
  · refine { stored := fun y hy => hsettled.stored y (Line.mem_trees_place hy), below := ?_,
             bound := Nat.le_of_eq hintro.length.symm,
             nodup := h.unfolded.nodup.sublist (Line.keys_place _ _), counting := ?_,
             dominated := h.dominated_placed, fresh := ?_, lone := ?_ }
    · intro y hy
      rw [← hintro.length]
      exact hsettled.below y (Line.mem_trees_place hy)
    · refine ⟨?_, fun _ _ => rfl, hintro.current, hintro.placed⟩
      intro key
      rw [htotal, hp.fresh key not_mem_nil, Token.defined_nil, if_neg not_mem_nil, Line.tokens, htrees, Int.zero_sub]
    · intro key hk
      have hpos := Body.uses_pos hk
      exact ⟨not_mem_nil, by omega⟩
    · intro key hk hone
      have hfalse := h.usedOnce_eq_false hk
      rw [(Body.usedOnce_iff t body key).2 hone] at hfalse
      exact Bool.noConfusion hfalse

/-- Uses are counted in a body where no name is missing, and jumps linked. -/
theorem run_countUses (hlen : p.table.length = t.length)
    (hmissing : Body.missing ((body.placed t).map Line.toStmt) = [])
    (hp : Countable (fun key => -(Token.uses (Line.tokens (body.unfolded t)) key : Int)) t.length []
      (Line.trees (body.placed t)) p) :
    ∃ q, (Procedure.countUses ((body.placed t).map Line.toStmt)).run p =
        (.ok (Body.linkJumps ((body.counted t).map Line.toStmt)), q) ∧
      Counts (fun key => -(Token.uses (Line.tokens (body.unfolded t)) key : Int)) []
        (Line.trees (body.placed t)) (Line.trees (body.counted t)) p q := by
  obtain ⟨q, hruns, hcounts⟩ := runs_count (body.usedOnce_iff t) hlen.symm hp
  rw [← Body.trees_counted] at hcounts
  refine ⟨q, ?_, hcounts⟩
  rw [← Body.exprs_map_toStmt (Body.fits_placed t body)] at hruns
  rw [Procedure.countUses, Body.findIdx?_isDangling_eq_none hmissing]
  simp only []
  rw [run_bind_of (run_mapExprM hruns), Line.map_toStmt_lines (Body.fits_placed t body)]
  rfl

/-- A missing name ends the count. -/
theorem run_countUses_error {name : String} {rest : List String} (h : body.missing = name :: rest)
    (p : Pass) : ∃ q, (Procedure.countUses body).run p = (.error (.missingLabel name), q) := by
  obtain ⟨i, j, hi, hj, rfl⟩ := Body.findIdx?_isDangling_eq_some h
  rw [Procedure.countUses, hi]
  simp only [hj]
  exact ⟨_, rfl⟩

/-- What the last stage finds once uses are counted. -/
theorem Counts.finishing (h : body.IsBuilt t) {q : Pass} (hlen : p.table.length = t.length)
    (hp : Countable (fun key => -(Token.uses (Line.tokens (body.unfolded t)) key : Int)) t.length []
      (Line.trees (body.placed t)) p)
    (hpq : Counts (fun key => -(Token.uses (Line.tokens (body.unfolded t)) key : Int)) []
      (Line.trees (body.placed t)) (Line.trees (body.counted t)) p q) :
    Finishing t.uncountable t.length (body.totals t) [] [] (Line.trees (body.counted t)) q := by
  have hmem : ∀ y ∈ Line.trees (body.counted t), ∃ x ∈ Line.trees (body.placed t), y = x.strip (body.usedOnce t) := by
    intro y hy
    rw [Body.trees_counted] at hy
    obtain ⟨x, hx, rfl⟩ := mem_map.1 hy
    exact ⟨x, hx, rfl⟩
  refine { stored := hpq.stored, below := ?_, bound := ?_, nodup := ?_, retaining := ⟨?_, ?_⟩,
           settled := Settled.nil _ _, fresh := fun _ _ => not_mem_nil,
           distinct := nodup_nil, ordered := trivial, dominated := h.dominated_counted,
           agrees := ?_, exact := fun key hk => Body.totals_eq hk }
  · intro y hy
    obtain ⟨x, hx, rfl⟩ := hmem y hy
    exact (reduces_strip _ t.uncountable x).below (hp.below x hx)
  · exact Nat.le_of_eq (by rw [hpq.keeps.length, hlen])
  · rw [Body.trees_counted]
    rw [flatMap_map]
    exact hp.nodup.sublist (Sublist.flatMap_right _ fun x _ => keys_strip _ x)
  · intro key
    have htotal := hpq.counting.total key
    rw [nil_append] at htotal
    rw [htotal, Body.totals]
    simp only [Body.usedOnce_iff]
    rfl
  · intro key _
    rw [hpq.counting.placed]
    rfl
  · intro y hy
    obtain ⟨x, hx, rfl⟩ := hmem y hy
    obtain ⟨z, hz, rfl⟩ := mem_map.1 (Line.mem_trees_place hx)
    rw [(Body.fits_unfolded t body).2] at hz
    exact ((reduces_strip _ _ _).agrees (tidy_simplify (agrees_unfoldAll h.operands h.exprs [] z hz)).2.agrees).2

/-- Increments are added. -/
theorem run_retainUses (hlen : p.table.length = t.length)
    (hp : Finishing t.uncountable t.length (body.totals t) [] [] (Line.trees (body.counted t)) p) :
    ∃ q T w, (Procedure.retainUses (Body.linkJumps ((body.counted t).map Line.toStmt))).run p = (body.retained t, q) ∧
      q.failure = p.failure ∧ q.table.length = t.length ∧
      Finishing t.uncountable t.length T w (body.resolved t) [] q := by
  obtain ⟨q, T, w, hruns, hfail, hlen', hfin⟩ := runs_finish hlen.symm hp
  refine ⟨q, T, w, ?_, hfail, by rw [hlen', hlen], hfin⟩
  rw [← Body.exprs_map_toStmt (Body.fits_counted t body), ← Body.exprs_linkJumps] at hruns
  exact run_mapExprM hruns

end Pass

/-! ## The whole run -/

namespace Procedure

open Pass

variable {p q : Pass} {α : Type} {t : Operands} {body : Body} {s : Scope}

theorem run_settle (a : α) (h : p.failure = none) : (settle a).run p = (.ok a, p) := by
  have hget : (get : PassM Pass).run p = (p, p) := rfl
  rw [settle, run_bind_of hget, h]
  rfl

section

variable {β : Type} {x : PassM (Except Failure α)} {f : α → ExceptT Failure PassM β}

theorem run_mk_bind_ok {a : α} (h : x.run p = (.ok a, q)) : (ExceptT.mk x >>= f).run.run p = (f a).run.run q := by
  rw [ExceptT.run_bind, ExceptT.run_mk, run_bind_of h]

theorem run_mk_bind_error {e : Failure} (h : x.run p = (.error e, q)) :
    (ExceptT.mk x >>= f).run.run p = (.error e, q) := by
  rw [ExceptT.run_bind, ExceptT.run_mk, run_bind_of h]
  rfl

end

/-- A stage that ends without a failure. -/
theorem run_settled {x : PassM α} {a : α} (h : x.run p = (a, q)) (hfail : q.failure = none) :
    (x >>= settle).run p = (.ok a, q) := by
  rw [run_bind_of h, run_settle a hfail]

/-- What the last stage of resolving begins with. -/
theorem exists_finishing (h : body.IsBuilt t) (hm : body.missing = []) (numbered : Nat) :
    ∃ p, p.table.length = t.length ∧ Finishing t.uncountable t.length (body.totals t) [] []
      (Line.trees (body.counted t)) p := by
  obtain ⟨p₁, _, _, hlen₁, hp₁⟩ := run_placeDefinitions h (introducing_copies h numbered)
  have hm₁ : Body.missing ((body.placed t).map Line.toStmt) = [] := by
    rw [Body.missing_of_outlines (Body.outlines_placed t body), hm]
  obtain ⟨p₂, _, hp₂⟩ := run_countUses hlen₁ hm₁ hp₁
  exact ⟨p₂, by rw [hp₂.keeps.length, hlen₁], hp₂.finishing h hlen₁ hp₁⟩

/-- All passes over a body in which no name is missing. -/
theorem run_passes (h : body.IsBuilt t) (hm : body.missing = []) (hp : Introducing t [] p)
    (hfail : p.failure = none) :
    ∃ q T w, (passes body).run.run p = (.ok (body.result t), q) ∧ q.table.length = t.length ∧
      Finishing t.uncountable t.length T w (body.resolved t) [] q := by
  obtain ⟨p₁, hrun₁, hfail₁, hlen₁, hp₁⟩ := run_placeDefinitions h hp
  rw [hfail] at hfail₁
  have hm₁ : Body.missing ((body.placed t).map Line.toStmt) = [] := by
    rw [Body.missing_of_outlines (Body.outlines_placed t body), hm]
  obtain ⟨p₂, hrun₂, hp₂⟩ := run_countUses hlen₁ hm₁ hp₁
  have hfail₂ : p₂.failure = none := by rw [hp₂.keeps.failure, hfail₁]
  have hlen₂ : p₂.table.length = t.length := by rw [hp₂.keeps.length, hlen₁]
  obtain ⟨p₃, T, w, hrun₃, hfail₃, hlen₃, hp₃⟩ := run_retainUses hlen₂ (hp₂.finishing h hlen₁ hp₁)
  rw [hfail₂] at hfail₃
  have hshared := Body.isShared_of_finishing hp₃ (Body.exprs_retained t body)
  have hget : ∀ (f : Pass → ExceptT Failure PassM Body) (p : Pass),
      (get >>= f).run.run p = (f p).run.run p := fun _ _ => rfl
  refine ⟨p₃, T, w, ?_, hlen₃, hp₃⟩
  rw [passes, run_mk_bind_ok (run_settled hrun₁ hfail₁), run_mk_bind_ok hrun₂,
    run_mk_bind_ok (run_settle _ hfail₂), run_mk_bind_ok (run_settled hrun₃ hfail₃), hget,
    hshared.verifySharing]
  rfl

/-- A missing name ends the passes, the first one in the order of the jumps. -/
theorem run_passes_error (h : body.IsBuilt t) {name : String} {rest : List String}
    (hm : body.missing = name :: rest) (hp : Introducing t [] p) (hfail : p.failure = none) :
    ∃ q, (passes body).run.run p = (.error (.missingLabel name), q) := by
  obtain ⟨p₁, hrun₁, hfail₁, _, _⟩ := run_placeDefinitions h hp
  rw [hfail] at hfail₁
  have hm₁ : Body.missing ((body.placed t).map Line.toStmt) = name :: rest := by
    rw [Body.missing_of_outlines (Body.outlines_placed t body), hm]
  obtain ⟨p₂, hrun₂⟩ := run_countUses_error hm₁ p₁
  refine ⟨p₂, ?_⟩
  rw [passes, run_mk_bind_ok (run_settled hrun₁ hfail₁), run_mk_bind_error hrun₂]

/-- Resolving succeeds where no name is missing. -/
theorem resolve_eq_ok {p : Procedure} (hp : p.isResolved = false) (h : p.body.IsBuilt s.operands)
    (hm : p.body.missing = []) :
    ∃ (r : Resolved) (q : Pass) (T : OperandKey → Int) (w : List Token),
      (p.resolve s).1 = .ok r ∧ r.body = p.body.result s.operands ∧ q.table = r.operands ∧
      r.operands.length = s.operands.length ∧
      Finishing s.operands.uncountable s.operands.length T w (p.body.resolved s.operands) [] q := by
  obtain ⟨q, T, w, hrun, hlen, hfin⟩ := run_passes h hm (introducing_copies h s.numbered) rfl
  refine ⟨⟨{ p with isResolved := true }, p.body.result s.operands, q.table⟩, q, T, w, ?_, rfl, rfl, hlen, hfin⟩
  rw [resolve, hp, if_neg Bool.false_ne_true, hrun]

/-- Resolving fails at the first missing name. -/
theorem resolve_eq_error {p : Procedure} (hp : p.isResolved = false) (h : p.body.IsBuilt s.operands)
    {name : String} {rest : List String} (hm : p.body.missing = name :: rest) :
    (p.resolve s).1 = .error (.missingLabel name) := by
  obtain ⟨q, hrun⟩ := run_passes_error h hm (introducing_copies h s.numbered) rfl
  rw [resolve, hp, if_neg Bool.false_ne_true, hrun]

/-- What there is to know of a body that is resolved. -/
theorem of_resolve_eq_ok {p : Procedure} {r : Resolved} (h : p.body.IsBuilt s.operands)
    (hr : (p.resolve s).1 = .ok r) :
    p.body.missing = [] ∧ r.body = p.body.result s.operands ∧
      ∃ (q : Pass) (T : OperandKey → Int) (w : List Token), q.table = r.operands ∧
        Finishing s.operands.uncountable s.operands.length T w (p.body.resolved s.operands) [] q := by
  have hp : p.isResolved = false := by
    cases hp : p.isResolved with
    | false => rfl
    | true =>
      rw [resolve, hp, if_pos rfl] at hr
      exact nomatch hr
  cases hm : p.body.missing with
  | nil =>
    obtain ⟨r', q, T, w, hr', hbody, htable, _, hfin⟩ := resolve_eq_ok hp h hm
    rw [hr', Except.ok.injEq] at hr
    subst hr
    exact ⟨rfl, hbody, q, T, w, htable, hfin⟩
  | cons name rest =>
    rw [resolve_eq_error hp h hm] at hr
    exact nomatch hr

end Procedure
end Firmware
