import Firmware.Procedure.Resolve
import Firmware.Proofs.Procedure.Lines

/-!
# Labels and jumps

Two views of a statement. Its skeleton is what a pass over expressions leaves alone (`skeleton`),
and its outline is what is left of it from the body under construction to the end (`outline?`),
where expression statements come and go and links are only made.

A jump is linked when its name is that of some label, which is decided by outlines
(`missing_eq`); linking then makes jumps and labels point at each other (`linked_linkJumps`).
-/

open List

namespace Firmware

namespace Stmt

/-- The statement with a placeholder for its expression and without the successors of a
breakpoint. -/
def skeleton : Stmt → Stmt
  | .expr _ => .expr (.leaf .nop)
  | .jump j => .jump { j with value := j.value.map fun _ => .leaf .nop }
  | .breakpoint b => .breakpoint { b with successors := [] }
  | s => s

/-- The statement without its links, unless it only evaluates an expression. -/
def outline? : Stmt → Option Stmt
  | .expr _ => none
  | .jump j => some (.jump { j with value := j.value.map fun _ => .leaf .nop, target := none })
  | .label l => some (.label { l with jumps := [] })
  | .stackEmpty => some .stackEmpty
  | .breakpoint b => some (.breakpoint { b with successors := [] })

/-- The name that a label carries. -/
def labelName? : Stmt → Option String
  | .label l => some l.name
  | _ => none

/-- The name that a jump goes to. -/
def jumpName? : Stmt → Option String
  | .jump j => some j.label
  | _ => none

/-- Whether the statement is a jump to a position. -/
def jumpsTo (i : Nat) : Stmt → Bool
  | .jump j => j.target == some i
  | _ => false

theorem outline?_skeleton (s : Stmt) : s.skeleton.outline? = s.outline? := by
  cases s with
  | jump j =>
    simp only [skeleton, outline?, Option.map_map]
    rfl
  | _ => rfl

theorem jumpsTo_skeleton (i : Nat) (s : Stmt) : s.skeleton.jumpsTo i = s.jumpsTo i := by
  cases s <;> rfl

theorem skeleton_withExpr {s : Stmt} (h : s.expr?.isSome = true) (e : Expr) : (s.withExpr e).skeleton = s.skeleton := by
  cases s with
  | expr x => rfl
  | jump j =>
    rw [expr?, Option.isSome_iff_exists] at h
    obtain ⟨x, hx⟩ := h
    simp only [withExpr, skeleton, hx, Option.map_some]
  | _ => exact absurd h Bool.false_ne_true

theorem eq_label_of_skeleton {s : Stmt} {l : Label} (h : s.skeleton = .label l) : s = .label l := by
  cases s with
  | label l' => exact h
  | _ => exact nomatch h

theorem outline?_bind_labelName? (s : Stmt) : s.outline?.bind labelName? = s.labelName? := by
  cases s <;> rfl

theorem outline?_bind_jumpName? (s : Stmt) : s.outline?.bind jumpName? = s.jumpName? := by
  cases s <;> rfl

end Stmt

theorem Line.skeleton_toStmt {l : Line} (h : l.Fits) : l.toStmt.skeleton = l.stmt.skeleton := by
  rw [Line.toStmt]
  cases ht : l.tree with
  | none => rfl
  | some x =>
    rw [Line.Fits, ht, Option.isSome_some] at h
    exact Stmt.skeleton_withExpr h x.head

namespace Body

variable {body body' : Body} {name : String} {i : Nat}

/-- The skeletons of the statements. -/
def skeletons (body : Body) : List Stmt := List.map Stmt.skeleton body

/-- The outlines of the statements that do more than evaluate an expression. -/
def outlines (body : Body) : List Stmt := List.filterMap Stmt.outline? body

/-- The names of the labels. -/
def labelNames (body : Body) : List String := List.filterMap Stmt.labelName? body

/-- The names that jumps go to. -/
def jumpNames (body : Body) : List String := List.filterMap Stmt.jumpName? body

/-- The names that jumps go to and no label carries, in the order of the jumps. -/
def missing (body : Body) : List String :=
  body.jumpNames.filter fun name => !body.labelNames.contains name

theorem skeletons_map_toStmt {ls : List Line} (h : ∀ l ∈ ls, l.Fits) :
    skeletons (ls.map Line.toStmt) = skeletons (ls.map Line.stmt) := by
  rw [skeletons, skeletons, map_map, map_map]
  exact map_congr_left fun l hl => Line.skeleton_toStmt (h l hl)

theorem skeletons_lines {xs : List Tree} (h : xs.length = body.exprs.length) :
    skeletons ((body.lines xs).map Line.toStmt) = body.skeletons := by
  rw [skeletons_map_toStmt (fits_lines h).1, stmts_lines]

/-- A view of statements that a change position by position leaves alone. -/
theorem map_mapIdx_of {α : Type} {f : Nat → Stmt → Stmt} {g g' : Stmt → α}
    (h : ∀ i s, g (f i s) = g' s) (body : Body) :
    (List.mapIdx f body).map g = List.map g' body := by
  refine ext_getElem? fun i => ?_
  rw [getElem?_map, getElem?_mapIdx, getElem?_map, Option.map_map]
  congr 1
  funext s
  exact h i s

theorem filterMap_mapIdx_of {α : Type} {f : Nat → Stmt → Stmt} {g : Stmt → Option α}
    (h : ∀ i s, g (f i s) = g s) (body : Body) :
    (List.mapIdx f body).filterMap g = List.filterMap g body := by
  have hmap : ∀ b : Body, List.filterMap g b = (List.map g b).filterMap id := by
    intro b
    rw [filterMap_map, Function.id_comp]
  rw [hmap, hmap, map_mapIdx_of h]

theorem skeletons_linkBreakpoints (body : Body) : body.linkBreakpoints.skeletons = body.skeletons :=
  map_mapIdx_of (fun i s => by cases s <;> rfl) body

theorem exprs_linkBreakpoints (body : Body) : body.linkBreakpoints.exprs = body.exprs :=
  filterMap_mapIdx_of (fun i s => by cases s <;> rfl) body

theorem exprs_linkJumps (body : Body) : body.linkJumps.exprs = body.exprs :=
  filterMap_mapIdx_of (fun i s => by cases s <;> rfl) body

theorem outlines_linkJumps (body : Body) : body.linkJumps.outlines = body.outlines :=
  filterMap_mapIdx_of (fun i s => by cases s <;> rfl) body

theorem outlines_of_skeletons (h : body.skeletons = body'.skeletons) : body.outlines = body'.outlines := by
  have hmap : ∀ b : Body, b.outlines = b.skeletons.filterMap Stmt.outline? := by
    intro b
    rw [outlines, skeletons, filterMap_map]
    congr 1
    funext s
    exact (Stmt.outline?_skeleton s).symm
  rw [hmap, hmap, h]

/-- Which names are missing is read off the outlines. -/
theorem missing_of_outlines (h : body.outlines = body'.outlines) : body.missing = body'.missing := by
  have hlabels : ∀ b : Body, b.labelNames = b.outlines.filterMap Stmt.labelName? := by
    intro b
    rw [outlines, filterMap_filterMap, labelNames]
    congr 1
    funext s
    exact (Stmt.outline?_bind_labelName? s).symm
  have hjumps : ∀ b : Body, b.jumpNames = b.outlines.filterMap Stmt.jumpName? := by
    intro b
    rw [outlines, filterMap_filterMap, jumpNames]
    congr 1
    funext s
    exact (Stmt.outline?_bind_jumpName? s).symm
  rw [missing, missing, hlabels, hlabels, hjumps, hjumps, h]

/-! ## Positions -/

theorem labelPosition_eq_some (h : labelPosition body name = some i) :
    ∃ l, body[i]? = some (.label l) ∧ l.name = name := by
  rw [labelPosition] at h
  have hfound := find?_some h
  split at hfound
  · rename_i l hl
    exact ⟨l, hl, beq_iff_eq.1 hfound⟩
  · exact absurd hfound Bool.false_ne_true

theorem mem_labelNames : name ∈ body.labelNames ↔ ∃ l, .label l ∈ body ∧ l.name = name := by
  rw [labelNames, mem_filterMap]
  constructor
  · rintro ⟨s, hs, hname⟩
    cases s with
    | label l => exact ⟨l, hs, Option.some.inj hname⟩
    | _ => exact nomatch hname
  · rintro ⟨l, hl, rfl⟩
    exact ⟨.label l, hl, rfl⟩

theorem mem_jumpNames : name ∈ body.jumpNames ↔ ∃ j, .jump j ∈ body ∧ j.label = name := by
  rw [jumpNames, mem_filterMap]
  constructor
  · rintro ⟨s, hs, hname⟩
    cases s with
    | jump j => exact ⟨j, hs, Option.some.inj hname⟩
    | _ => exact nomatch hname
  · rintro ⟨j, hj, rfl⟩
    exact ⟨.jump j, hj, rfl⟩

/-- A name is missing when a jump goes to it and no label carries it. -/
theorem mem_missing : name ∈ body.missing ↔
    (∃ j, .jump j ∈ body ∧ j.label = name) ∧ ∀ l, .label l ∈ body → l.name ≠ name := by
  rw [missing, mem_filter, Bool.not_eq_true', ← Bool.not_eq_true, contains_iff_mem, mem_jumpNames, mem_labelNames]
  simp only [not_exists, not_and, ne_eq]

/-- The first jump to a name that is missing gives the first missing name. -/
theorem missing_eq_cons {before after : Body} {j : Jump} (hbody : body = before ++ .jump j :: after)
    (hj : ∀ l, .label l ∈ body → l.name ≠ j.label)
    (hbefore : ∀ i, .jump i ∈ before → ∃ l, .label l ∈ body ∧ l.name = i.label) :
    ∃ rest, body.missing = j.label :: rest := by
  have hnames : body.jumpNames = before.jumpNames ++ j.label :: after.jumpNames := by
    rw [hbody, jumpNames, filterMap_append]
    rfl
  have hnil : before.jumpNames.filter (fun name => !body.labelNames.contains name) = [] := by
    rw [filter_eq_nil_iff]
    intro name hname
    obtain ⟨i, hi, rfl⟩ := mem_jumpNames.1 hname
    rw [Bool.not_eq_true', Bool.not_eq_false, contains_iff_mem]
    exact mem_labelNames.2 (hbefore i hi)
  have hkept : (!body.labelNames.contains j.label) = true := by
    rw [Bool.not_eq_true', ← Bool.not_eq_true, contains_iff_mem, mem_labelNames]
    rintro ⟨l, hl, hname⟩
    exact hj l hl hname
  refine ⟨after.jumpNames.filter fun name => !body.labelNames.contains name, ?_⟩
  rw [missing, hnames, filter_append, hnil, nil_append, filter_cons, if_pos hkept]

/-- A name has no position when no label carries it. -/
theorem labelPosition_isNone (body : Body) (name : String) :
    (labelPosition body name).isNone = !body.labelNames.contains name := by
  rw [Bool.eq_iff_iff, Option.isNone_iff_eq_none, Bool.not_eq_true', ← Bool.not_eq_true,
    contains_iff_mem, labelPosition, find?_eq_none]
  constructor
  · intro h hmem
    obtain ⟨l, hl, hname⟩ := mem_labelNames.1 hmem
    obtain ⟨i, hi⟩ := mem_iff_getElem?.1 hl
    have hlt : i < List.length body := (List.getElem?_eq_some_iff.1 hi).1
    refine h i (mem_reverse.2 (mem_range.2 hlt)) ?_
    rw [hi]
    exact beq_iff_eq.2 hname
  · intro h i _ hi
    split at hi
    · rename_i l hl
      exact h (mem_labelNames.2 ⟨l, mem_of_getElem? hl, beq_iff_eq.1 hi⟩)
    · exact Bool.false_ne_true hi

/-- The names of the jumps without a label are the missing ones. -/
theorem missing_eq (body : Body) : body.missing = (List.filter body.isDangling body).filterMap Stmt.jumpName? := by
  have hstep : ∀ (all rest : Body), rest.jumpNames.filter (fun n => !all.labelNames.contains n) =
      (List.filter all.isDangling rest).filterMap Stmt.jumpName? := by
    intro all rest
    induction rest with
    | nil => rfl
    | cons s rest ih =>
      cases s with
      | jump j =>
        have hd : all.isDangling (.jump j) = !all.labelNames.contains j.label := labelPosition_isNone all j.label
        have hname : (Stmt.jump j).jumpName? = some j.label := rfl
        rw [jumpNames, filterMap_cons_some hname, filter_cons, filter_cons, hd]
        by_cases hj : (!all.labelNames.contains j.label) = true
        · rw [if_pos hj, if_pos hj, filterMap_cons_some hname]
          exact congrArg _ ih
        · rw [if_neg hj, if_neg hj]
          exact ih
      | _ => exact ih
  exact hstep body body

theorem eq_jump_of_isDangling {s : Stmt} (h : body.isDangling s = true) : ∃ j, s = .jump j := by
  cases s with
  | jump j => exact ⟨j, rfl⟩
  | _ => exact absurd h Bool.false_ne_true

theorem findIdx?_isDangling_eq_none (h : body.missing = []) : List.findIdx? body.isDangling body = none := by
  rw [missing_eq, filterMap_eq_nil_iff] at h
  rw [findIdx?_eq_none_iff]
  intro s hs
  cases hd : body.isDangling s with
  | false => rfl
  | true =>
    obtain ⟨j, rfl⟩ := eq_jump_of_isDangling hd
    exact absurd (h _ (mem_filter.2 ⟨hs, hd⟩)) (Option.some_ne_none _)

theorem findIdx?_of_filter {p : Stmt → Bool} {s : Stmt} {rest : List Stmt}
    (h : List.filter p body = s :: rest) :
    ∃ i, List.findIdx? p body = some i ∧ body[i]? = some s := by
  induction body with
  | nil => exact nomatch h
  | cons x xs ih =>
    rw [filter_cons] at h
    rw [findIdx?_cons]
    split at h
    · rename_i hx
      rw [if_pos hx]
      exact ⟨0, rfl, congrArg some (List.cons.inj h).1⟩
    · rename_i hx
      obtain ⟨i, hi, hs⟩ := ih h
      rw [if_neg hx, hi]
      exact ⟨i + 1, rfl, hs⟩

/-- The first jump without a label is the one to the first missing name. -/
theorem findIdx?_isDangling_eq_some {rest : List String} (h : body.missing = name :: rest) :
    ∃ (i : Nat) (j : Jump), List.findIdx? body.isDangling body = some i ∧
      body[i]? = some (.jump j) ∧ j.label = name := by
  rw [missing_eq] at h
  cases hf : List.filter body.isDangling body with
  | nil => rw [hf] at h; exact nomatch h
  | cons s ss =>
    have hs : s ∈ List.filter body.isDangling body := by rw [hf]; exact mem_cons_self
    obtain ⟨j, rfl⟩ := eq_jump_of_isDangling (mem_filter.1 hs).2
    obtain ⟨i, hi, hj⟩ := findIdx?_of_filter hf
    rw [hf] at h
    exact ⟨i, j, hi, hj, (List.cons.inj h).1⟩

/-- The number of positions at which a statement is of some kind. -/
theorem length_filter_range (p : Stmt → Bool) (body : Body) :
    ((List.range (List.length body)).filter fun i => body[i]?.any p).length = List.countP p body := by
  induction body with
  | nil => rfl
  | cons s rest ih =>
    rw [length_cons, range_succ_eq_map, filter_cons, filter_map, countP_cons]
    by_cases hs : p s = true
    · rw [if_pos (by simpa only [getElem?_cons_zero, Option.any_some] using hs), if_pos hs,
        length_cons, length_map, ← ih]
      rfl
    · rw [if_neg (by simpa only [getElem?_cons_zero, Option.any_some] using hs), if_neg hs, length_map, ← ih]
      rfl

theorem length_jumpPositions (body : Body) (name : String) : (jumpPositions body name).length =
      List.countP (fun s => s.jumpName? == some name) body := by
  rw [← length_filter_range, jumpPositions]
  congr 2
  funext i
  cases body[i]? with
  | none => rfl
  | some s => cases s <;> rfl

/-! ## Linked bodies -/

/-- Every jump knows the position of a label with its name, and every label the jumps to it. -/
structure IsLinked (body : Body) : Prop where
  target : ∀ j, .jump j ∈ body → ∃ (i : Nat) (l : Label),
    j.target = some i ∧ body[i]? = some (.label l) ∧ l.name = j.label
  uses : ∀ (i : Nat) (l : Label), body[i]? = some (.label l) →
    l.uses = List.countP (Stmt.jumpsTo i) body

theorem getElem?_label_linkJumps {l : Label} (h : body[i]? = some (.label l)) :
    body.linkJumps[i]? = some (.label { l with
      jumps := if labelPosition body l.name == some i then jumpPositions body l.name else [] }) := by
  simp only [linkJumps, getElem?_mapIdx, h, Option.map_some]

theorem eq_label_of_getElem?_linkJumps {l : Label} (h : body.linkJumps[i]? = some (.label l))
    : ∃ l₀ : Label, body[i]? = some (.label l₀) ∧ l = { l₀ with
        jumps := if labelPosition body l₀.name == some i then jumpPositions body l₀.name
                 else [] } := by
  rw [linkJumps, getElem?_mapIdx, Option.map_eq_some_iff] at h
  obtain ⟨s, hs, hl⟩ := h
  cases s with
  | label l₀ => exact ⟨l₀, hs, (Stmt.label.inj hl).symm⟩
  | _ => exact nomatch hl

theorem countP_jumpsTo_linkJumps (body : Body) (i : Nat) : List.countP (Stmt.jumpsTo i) body.linkJumps =
      List.countP (fun s => s.jumpName?.any fun n => labelPosition body n == some i) body := by
  have hmap : List.map (Stmt.jumpsTo i) body.linkJumps =
      List.map (fun s => s.jumpName?.any fun n => labelPosition body n == some i) body :=
    map_mapIdx_of (fun k s => by cases s <;> rfl) body
  have hcount := congrArg (List.countP id) hmap
  rwa [countP_map, countP_map, Function.id_comp, Function.id_comp] at hcount

/-- Once no name is missing, linking makes jumps and labels point at each other. -/
theorem linked_linkJumps (h : body.missing = []) : body.linkJumps.IsLinked := by
  refine ⟨?_, ?_⟩
  · intro j hj
    obtain ⟨k, hk⟩ := mem_iff_getElem?.1 hj
    rw [linkJumps, getElem?_mapIdx, Option.map_eq_some_iff] at hk
    obtain ⟨s, hs, hsj⟩ := hk
    cases s with
    | jump j₀ =>
      cases hsj
      have hname : j₀.label ∈ body.jumpNames := mem_jumpNames.2 ⟨j₀, mem_of_getElem? hs, rfl⟩
      have hsome : (labelPosition body j₀.label).isNone = false := by
        rw [labelPosition_isNone, Bool.not_eq_false']
        rw [missing, filter_eq_nil_iff] at h
        simpa only [Bool.not_eq_true', Bool.not_eq_false] using h _ hname
      obtain ⟨i, hi⟩ := Option.isSome_iff_exists.1 (Option.isNone_eq_false_iff.1 hsome)
      obtain ⟨l, hl, hlname⟩ := labelPosition_eq_some hi
      exact ⟨i, _, hi, getElem?_label_linkJumps hl, hlname⟩
    | _ => exact nomatch hsj
  · intro i l hl
    obtain ⟨l₀, hl₀, rfl⟩ := eq_label_of_getElem?_linkJumps hl
    -- the jumps that get the position are those with the name, if the label is the last of its name
    rw [countP_jumpsTo_linkJumps, Label.uses]
    by_cases hpos : labelPosition body l₀.name = some i
    · rw [if_pos (beq_iff_eq.2 hpos), length_jumpPositions]
      refine countP_congr fun s _ => ?_
      cases s with
      | jump j =>
        simp only [Stmt.jumpName?, Option.any_some, beq_iff_eq, Option.some.injEq]
        constructor
        · intro hname
          rw [hname, hpos]
        · intro hj
          obtain ⟨l', hl', hname⟩ := labelPosition_eq_some hj
          rw [hl₀, Option.some.injEq, Stmt.label.injEq] at hl'
          rw [← hname, ← hl']
      | _ => rfl
    · rw [if_neg (by rw [beq_iff_eq]; exact hpos), length_nil, eq_comm, countP_eq_zero]
      intro s _ hs
      cases s with
      | jump j =>
        simp only [Stmt.jumpName?, Option.any_some, beq_iff_eq] at hs
        obtain ⟨l', hl', hname⟩ := labelPosition_eq_some hs
        rw [hl₀, Option.some.injEq, Stmt.label.injEq] at hl'
        rw [← hname, ← hl'] at hs
        exact hpos hs
      | _ => exact Bool.false_ne_true hs

theorem IsLinked.of_skeletons (h : body.IsLinked) (hs : body'.skeletons = body.skeletons) : body'.IsLinked := by
  have hlabel : ∀ (b b' : Body) (i : Nat) (l : Label), b'.skeletons = b.skeletons →
      b[i]? = some (.label l) → b'[i]? = some (.label l) := by
    intro b b' i l hbb hl
    have hsk : b'.skeletons[i]? = some (.label l) := by
      rw [hbb, skeletons, getElem?_map, hl]
      rfl
    rw [skeletons, getElem?_map, Option.map_eq_some_iff] at hsk
    obtain ⟨s, hs, hsl⟩ := hsk
    rw [hs, Stmt.eq_label_of_skeleton hsl]
  refine ⟨?_, ?_⟩
  · intro j hj
    obtain ⟨k, hk⟩ := mem_iff_getElem?.1 hj
    have hsk : body.skeletons[k]? = some (Stmt.jump j).skeleton := by
      rw [← hs, skeletons, getElem?_map, hk]
      rfl
    rw [skeletons, getElem?_map, Option.map_eq_some_iff] at hsk
    obtain ⟨s, hsb, hsj⟩ := hsk
    cases s with
    | jump j₀ =>
      obtain ⟨i, l, hi, hl, hname⟩ := h.target j₀ (mem_of_getElem? hsb)
      simp only [Stmt.skeleton, Stmt.jump.injEq, Jump.mk.injEq] at hsj
      exact ⟨i, l, by rw [← hsj.2.2.2.2, hi], hlabel _ _ i l hs hl, by rw [hname, hsj.1]⟩
    | _ => exact nomatch hsj
  · intro i l hl
    have hcount : ∀ b : Body, List.countP (Stmt.jumpsTo i) b = List.countP (Stmt.jumpsTo i) b.skeletons := by
      intro b
      rw [skeletons, countP_map]
      congr 1
      funext s
      exact (Stmt.jumpsTo_skeleton i s).symm
    rw [h.uses i l (hlabel _ _ i l hs.symm hl), hcount body, hcount body', hs]

end Body
end Firmware
