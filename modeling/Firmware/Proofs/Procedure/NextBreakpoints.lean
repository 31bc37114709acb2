import Mathlib.Data.List.Forall2
import Mathlib.Logic.Function.Iterate
import Mathlib.Logic.Relation
import Firmware.Proofs.Procedure.Resolving

/-!
# The next breakpoints

Control goes from a statement to the next one, unless an unconditional jump leads away, and from a jump to its target
(`Body.Flows`). The successors of a breakpoint are the breakpoints that control comes to from behind it without
passing another one (`Body.ComesTo`).

* The search goes through the positions that control may come to within those still unseen (`search_spec`). Erasing a
  position takes nothing away that is not found from there (`Path.avoiding`).
* Every step uses up a pending position and adds at most two for one that is no longer unseen, so that the search ends
  after at most twice as many steps as there are statements, and one (`Search.iterate_advance`). This holds of every
  body, whatever cycles its jumps make.
* Whatever the passes before do to a body, it leaves them with its jumps linked (`exists_of_resolve`).
-/

namespace Firmware

namespace Body

open List

/-! ## Control flow -/

/-- Whether there is a breakpoint at a position. -/
def StopsAt (body : Body) (i : Nat) : Prop := ∃ b, body[i]? = some (.breakpoint b)

/-- Whether control may go from one position to another within the body. -/
inductive Flows (body : Body) (i : Nat) : Nat → Prop
  /-- To the next statement, unless the jump is always taken. -/
  | next {s : Stmt} (hs : body[i]? = some s) (hfalls : ∀ j, s = .jump j → j.mode ≠ .always)
      (hin : i + 1 < List.length body) : Flows body i (i + 1)
  /-- To the target of a jump. -/
  | jump {j : Jump} {k : Nat} (hj : body[i]? = some (.jump j)) (hk : j.target = some k)
      (hin : k < List.length body) : Flows body i k

/-- Whether control that is at one position may come to another without passing a breakpoint. -/
def ComesTo (body : Body) : Nat → Nat → Prop :=
  Relation.ReflTransGen fun i k => ¬ body.StopsAt i ∧ body.Flows i k

/-! ## Paths through unseen positions -/

/-- Whether control may come from one position to another through unseen positions only. -/
inductive Path (body : Body) (unseen : List Nat) : Nat → Nat → Prop
  | here {i : Nat} (hi : i ∈ unseen) : Path body unseen i i
  | step {i k j : Nat} (hi : i ∈ unseen) (hstop : ¬ body.StopsAt i) (hflow : body.Flows i k)
      (hpath : Path body unseen k j) : Path body unseen i j

variable {body : Body} {unseen seen : List Nat} {i j k : Nat}

namespace Path

theorem first_mem (h : Path body unseen i j) : i ∈ unseen := by
  cases h with
  | here hi => exact hi
  | step hi => exact hi

theorem last_mem (h : Path body unseen i j) : j ∈ unseen := by
  induction h with
  | here hi => exact hi
  | step _ _ _ _ ih => exact ih

theorem mono (hsub : seen ⊆ unseen) (h : Path body seen i j) : Path body unseen i j := by
  induction h with
  | here hi => exact .here (hsub hi)
  | step hi hstop hflow _ ih => exact .step (hsub hi) hstop hflow ih

/-- A path avoids a position, ends there, or leaves it for good. -/
theorem avoiding (v : Nat) (h : Path body unseen i j) : Path body (unseen.erase v) i j ∨ j = v ∨
      ¬ body.StopsAt v ∧ ∃ k, body.Flows v k ∧ Path body (unseen.erase v) k j := by
  induction h with
  | @here i hi =>
    by_cases hv : i = v
    · exact .inr (.inl hv)
    · exact .inl (.here ((mem_erase_of_ne hv).2 hi))
  | @step i k j hi hstop hflow _ ih =>
    obtain hpath | hlater := ih
    · by_cases hv : i = v
      · subst hv
        exact .inr (.inr ⟨hstop, k, hflow, hpath⟩)
      · exact .inl (.step ((mem_erase_of_ne hv).2 hi) hstop hflow hpath)
    · exact .inr hlater

end Path

/-- All of the body is unseen at first. -/
theorem path_range_iff : Path body (List.range (List.length body)) i j ↔ i < List.length body ∧ body.ComesTo i j := by
  constructor
  · intro h
    refine ⟨mem_range.1 h.first_mem, ?_⟩
    induction h with
    | here hi => exact .refl
    | step hi hstop hflow _ ih => exact .head ⟨hstop, hflow⟩ ih
  · rintro ⟨hi, h⟩
    induction h using Relation.ReflTransGen.head_induction_on with
    | refl => exact .here (mem_range.2 hi)
    | @head i k hstep _ ih =>
      have hk : k < List.length body := by
        cases hstep.2 with
        | next _ _ hin => exact hin
        | jump _ _ hin => exact hin
      exact .step (mem_range.2 hi) hstep.1 hstep.2 (ih hk)

/-! ## One statement -/

/-- The search follows a statement to where control goes. -/
theorem flows_iff_mem_follow {s : Stmt} (hs : body[i]? = some s) (hstop : ¬ body.StopsAt i) :
    body.Flows i k ↔ k ∈ follow i s ∧ k < List.length body := by
  constructor
  · intro h
    cases h with
    | @next s' hs' hfalls hin =>
      rw [hs, Option.some.injEq] at hs'
      subst hs'
      refine ⟨?_, hin⟩
      cases s with
      | jump j =>
        rw [follow, if_neg (by rw [beq_iff_eq]; exact hfalls j rfl)]
        exact mem_append_right _ (mem_singleton.2 rfl)
      | breakpoint b => exact absurd ⟨b, hs⟩ hstop
      | _ => exact mem_singleton.2 rfl
    | @jump j k hj hk hin =>
      rw [hs, Option.some.injEq] at hj
      subst hj
      have htarget : k ∈ j.target.toList := by rw [hk]; exact mem_singleton.2 rfl
      refine ⟨?_, hin⟩
      rw [follow]
      split
      · exact htarget
      · exact mem_append_left _ htarget
  · rintro ⟨hk, hin⟩
    cases s with
    | jump j =>
      rw [follow] at hk
      split at hk
      · exact .jump hs (Option.mem_toList.1 hk) hin
      · rename_i halways
        rw [mem_append, mem_singleton] at hk
        obtain hk | rfl := hk
        · exact .jump hs (Option.mem_toList.1 hk) hin
        · refine .next hs (fun j' hj' => ?_) hin
          cases hj'
          rwa [beq_iff_eq] at halways
    | breakpoint b => exact absurd ⟨b, hs⟩ hstop
    | _ =>
      obtain rfl := mem_singleton.1 hk
      exact .next hs (fun _ => nofun) hin

theorem length_follow_le (i : Nat) (s : Stmt) : (follow i s).length ≤ 2 := by
  cases s with
  | jump j =>
    rw [follow]
    have htarget := Option.length_toList_le (o := j.target)
    split
    · omega
    · rw [length_append, length_singleton]
      omega
  | breakpoint b => exact Nat.zero_le 2
  | _ => exact Nat.le_succ 1

/-! ## The search -/

theorem StopsAt.lt (h : body.StopsAt i) : i < List.length body := by
  obtain ⟨b, hb⟩ := h
  exact (List.getElem?_eq_some_iff.1 hb).1

theorem Flows.lt (h : body.Flows i k) : i < List.length body := by
  cases h with
  | next hs => exact (List.getElem?_eq_some_iff.1 hs).1
  | jump hj => exact (List.getElem?_eq_some_iff.1 hj).1

theorem Path.first_lt (h : Path body unseen i j) (hj : body.StopsAt j) : i < List.length body := by
  cases h with
  | here => exact hj.lt
  | step _ _ hflow => exact hflow.lt

variable {pending next : List Nat}

/-- What is found where there is a breakpoint. -/
theorem exists_path_of_stopsAt (hi : i ∈ unseen) (hstop : body.StopsAt i) :
    (∃ v ∈ i :: pending, Path body unseen v j) ↔ j = i ∨ ∃ v ∈ pending, Path body (unseen.erase i) v j := by
  constructor
  · rintro ⟨v, hv, hpath⟩
    obtain hpath | rfl | ⟨hpasses, -⟩ := hpath.avoiding i
    · obtain rfl | hv := mem_cons.1 hv
      · cases hpath with
        | here => exact .inl rfl
        | step _ hpasses => exact absurd hstop hpasses
      · exact .inr ⟨v, hv, hpath⟩
    · exact .inl rfl
    · exact absurd hstop hpasses
  · rintro (rfl | ⟨v, hv, hpath⟩)
    · exact ⟨j, mem_cons_self, .here hi⟩
    · exact ⟨v, mem_cons_of_mem i hv, hpath.mono erase_subset⟩

/-- What is found where there is none: what is found from where control goes. -/
theorem exists_path_of_flows (hi : i ∈ unseen) (hnodup : unseen.Nodup) (hstop : ¬ body.StopsAt i)
    (hnext : ∀ k, body.Flows i k ↔ k ∈ next ∧ k < List.length body) (hj : body.StopsAt j) :
    (∃ v ∈ i :: pending, Path body unseen v j) ↔ ∃ v ∈ next ++ pending, Path body (unseen.erase i) v j := by
  constructor
  · rintro ⟨v, hv, hpath⟩
    obtain hpath | rfl | ⟨-, k, hflow, hpath⟩ := hpath.avoiding i
    · obtain rfl | hv := mem_cons.1 hv
      · exact absurd hpath.first_mem hnodup.not_mem_erase
      · exact ⟨v, mem_append_right next hv, hpath⟩
    · exact absurd hj hstop
    · exact ⟨k, mem_append_left pending ((hnext k).1 hflow).1, hpath⟩
  · rintro ⟨v, hv, hpath⟩
    have hwide : Path body unseen v j := hpath.mono erase_subset
    obtain hv | hv := mem_append.1 hv
    · exact ⟨i, mem_cons_self, .step hi hstop ((hnext v).2 ⟨hv, hpath.first_lt hj⟩) hwide⟩
    · exact ⟨v, mem_cons_of_mem i hv, hwide⟩

/-- What is found from a position that has been seen. -/
theorem exists_path_of_seen (hi : i ∉ unseen) :
    (∃ v ∈ i :: pending, Path body unseen v j) ↔ ∃ v ∈ pending, Path body unseen v j := by
  constructor
  · rintro ⟨v, hv, hpath⟩
    obtain rfl | hv := mem_cons.1 hv
    · exact absurd hpath.first_mem hi
    · exact ⟨v, hv, hpath⟩
  · rintro ⟨v, hv, hpath⟩
    exact ⟨v, mem_cons_of_mem i hv, hpath⟩

theorem search_breakpoint {b : Breakpoint} (hi : i ∈ unseen) (hb : body[i]? = some (.breakpoint b)) :
    search body (i :: pending) unseen = b.id :: search body pending (unseen.erase i) := by
  rw [search, dif_pos hi, hb]

theorem search_stmt {s : Stmt} (hi : i ∈ unseen) (hs : body[i]? = some s) (hnot : ∀ b, s ≠ .breakpoint b) :
    search body (i :: pending) unseen = search body (follow i s ++ pending) (unseen.erase i) := by
  rw [search, dif_pos hi, hs]
  cases s with
  | breakpoint b => exact absurd rfl (hnot b)
  | _ => rfl

theorem search_none (hi : i ∈ unseen) (hnone : body[i]? = none) :
    search body (i :: pending) unseen = search body pending (unseen.erase i) := by
  rw [search, dif_pos hi, hnone]

theorem search_seen (hi : i ∉ unseen) : search body (i :: pending) unseen = search body pending unseen := by
  rw [search, dif_neg hi]

/-- Whether the breakpoint at a position has an id. -/
def HasId (body : Body) (i : Nat) (id : Int) : Prop := ∃ b, body[i]? = some (.breakpoint b) ∧ b.id = id

/-- **Search.** The ids found are those of the breakpoints that there is a path to, each once. -/
theorem search_spec (body : Body) (pending : List Nat) (hnodup : unseen.Nodup) : ∃ places : List Nat, places.Nodup ∧
      (∀ j, j ∈ places ↔ body.StopsAt j ∧ ∃ i ∈ pending, Path body unseen i j) ∧
      List.Forall₂ body.HasId places (search body pending unseen) := by
  fun_induction search body pending unseen with
  | case1 => exact ⟨[], nodup_nil, by simp, .nil⟩
  | case2 unseen i rest hi b hb ih =>
    obtain ⟨places, hplaces, hmem, hids⟩ := ih (hnodup.erase i)
    have hstop : body.StopsAt i := ⟨b, hb⟩
    refine ⟨i :: places, nodup_cons.2 ⟨?_, hplaces⟩, fun j => ?_, .cons ⟨b, hb, rfl⟩ hids⟩
    · -- the position itself is no longer unseen
      intro hin
      obtain ⟨-, v, -, hpath⟩ := (hmem i).1 hin
      exact hnodup.not_mem_erase hpath.last_mem
    · rw [mem_cons, hmem, exists_path_of_stopsAt hi hstop]
      constructor
      · rintro (rfl | ⟨hj, hpath⟩)
        · exact ⟨hstop, .inl rfl⟩
        · exact ⟨hj, .inr hpath⟩
      · rintro ⟨hj, rfl | hpath⟩
        · exact .inl rfl
        · exact .inr ⟨hj, hpath⟩
  | case3 unseen i rest hi s hnot hs ih =>
    obtain ⟨places, hplaces, hmem, hids⟩ := ih (hnodup.erase i)
    have hstop : ¬ body.StopsAt i := by
      rintro ⟨b, hb⟩
      rw [hs, Option.some.injEq] at hb
      exact hnot b hb
    refine ⟨places, hplaces, fun j => ?_, hids⟩
    rw [hmem, and_congr_right_iff]
    intro hj
    rw [exists_path_of_flows hi hnodup hstop (fun k => flows_iff_mem_follow hs hstop) hj]
  | case4 unseen i rest hi hnone ih =>
    obtain ⟨places, hplaces, hmem, hids⟩ := ih (hnodup.erase i)
    have hlt : ¬ i < List.length body := Nat.not_lt.2 (List.getElem?_eq_none_iff.1 hnone)
    have hnext : ∀ k, body.Flows i k ↔ k ∈ [] ∧ k < List.length body := by
      intro k
      exact ⟨fun h => absurd h.lt hlt, fun h => absurd h.1 not_mem_nil⟩
    refine ⟨places, hplaces, fun j => ?_, hids⟩
    rw [hmem, and_congr_right_iff]
    intro hj
    rw [exists_path_of_flows hi hnodup (fun hstop => hlt hstop.lt) hnext hj, nil_append]
  | case5 unseen i rest hi ih =>
    obtain ⟨places, hplaces, hmem, hids⟩ := ih hnodup
    refine ⟨places, hplaces, fun j => ?_, hids⟩
    rw [hmem, exists_path_of_seen hi]

theorem ComesTo.first_lt (h : body.ComesTo i j) (hj : body.StopsAt j) : i < List.length body := by
  obtain rfl | ⟨k, hstep, -⟩ := Relation.ReflTransGen.cases_head h
  · exact hj.lt
  · exact hstep.2.lt

/-- The search from one position goes through all that control may come to from there. -/
theorem nextBreakpoints_spec (body : Body) (start : Nat) :
    ∃ places : List Nat, places.Nodup ∧ (∀ j, j ∈ places ↔ body.StopsAt j ∧ body.ComesTo start j) ∧
      List.Forall₂ body.HasId places (nextBreakpoints body start) := by
  obtain ⟨places, hnodup, hmem, hids⟩ := search_spec body [start] nodup_range
  refine ⟨places, hnodup, fun j => ?_, hids⟩
  rw [hmem, and_congr_right_iff]
  intro hj
  constructor
  · rintro ⟨i, hi, hpath⟩
    obtain rfl := mem_singleton.1 hi
    exact (path_range_iff.1 hpath).2
  · intro h
    exact ⟨start, mem_singleton.2 rfl, path_range_iff.2 ⟨h.first_lt hj, h⟩⟩

/-! ## Its steps -/

/-- A search that is under way. -/
structure Search where
  pending : List Nat
  unseen : List Nat
  found : List Int

namespace Search

/-- A search that has not begun. -/
def start (body : Body) (i : Nat) : Search := ⟨[i], List.range (List.length body), []⟩

/-- Takes one pending position. Nothing changes when there is none. -/
def advance (body : Body) (s : Search) : Search :=
  match s.pending with
  | [] => s
  | i :: rest =>
    if i ∈ s.unseen then
      match body[i]? with
      | some (.breakpoint b) => ⟨rest, s.unseen.erase i, s.found ++ [b.id]⟩
      | some stmt => ⟨follow i stmt ++ rest, s.unseen.erase i, s.found⟩
      | none => ⟨rest, s.unseen.erase i, s.found⟩
    else ⟨rest, s.unseen, s.found⟩

/-- What there is left to do: each unseen position may yet make two pending. -/
def work (s : Search) : Nat := 2 * s.unseen.length + s.pending.length

/-- A step does what the search does first. -/
theorem found_append_advance (body : Body) (s : Search) :
    (s.advance body).found ++ search body (s.advance body).pending (s.advance body).unseen =
      s.found ++ search body s.pending s.unseen := by
  fun_cases advance body s with
  | case1 hpending => rfl
  | case2 i rest hpending hi b hb =>
    rw [hpending, search_breakpoint hi hb, append_assoc, singleton_append]
  | case3 i rest hpending hi stmt hnot hs => rw [hpending, search_stmt hi hs hnot]
  | case4 i rest hpending hi hnone => rw [hpending, search_none hi hnone]
  | case5 i rest hpending hi => rw [hpending, search_seen hi]

theorem work_advance (body : Body) {s : Search} (h : s.pending ≠ []) : (s.advance body).work < s.work := by
  unfold work
  fun_cases advance body s with
  | case1 hpending => exact absurd hpending h
  | case2 i rest hpending hi b hb =>
    have hlength := length_erase_lt hi
    rw [hpending, length_cons]
    dsimp only
    omega
  | case3 i rest hpending hi stmt hnot hs =>
    have hlength := length_erase_lt hi
    have hfollow := length_follow_le i stmt
    rw [hpending, length_cons, length_append]
    dsimp only
    omega
  | case4 i rest hpending hi hnone =>
    have hlength := length_erase_lt hi
    rw [hpending, length_cons]
    dsimp only
    omega
  | case5 i rest hpending hi =>
    rw [hpending, length_cons]
    dsimp only
    omega

theorem advance_of_over (body : Body) {s : Search} (h : s.pending = []) : s.advance body = s := by
  unfold advance
  rw [h]

/-- **Termination.** Whatever the body, a search is over after as many steps as there is work. -/
theorem iterate_advance (body : Body) {n : Nat} {s : Search} (hn : s.work ≤ n) : ((advance body)^[n] s).pending = [] ∧
      ((advance body)^[n] s).found = s.found ++ search body s.pending s.unseen := by
  by_cases hpending : s.pending = []
  · rw [Function.iterate_fixed (advance_of_over body hpending), hpending, search, append_nil]
    exact ⟨rfl, rfl⟩
  · have hless := work_advance body hpending
    cases n with
    | zero => omega
    | succ n =>
      obtain ⟨hover, hfound⟩ := iterate_advance body (n := n) (s := s.advance body) (by omega)
      rw [Function.iterate_succ_apply]
      exact ⟨hover, by rw [hfound, found_append_advance]⟩

/-- A search from one position. -/
theorem iterate_advance_start (body : Body) (i : Nat) :
    ((advance body)^[2 * List.length body + 1] (start body i)).pending = [] ∧
      ((advance body)^[2 * List.length body + 1] (start body i)).found = nextBreakpoints body i := by
  have hwork : (start body i).work = 2 * List.length body + 1 := by
    unfold work start
    rw [length_range, length_singleton]
  exact iterate_advance body (Nat.le_of_eq hwork)

end Search

/-! ## Linking -/

/-- The statement as it stands in a body whose breakpoints are linked. -/
def linkStmt (body : Body) (i : Nat) : Stmt → Stmt
  | .breakpoint b => .breakpoint { b with successors := nextBreakpoints body (i + 1) }
  | s => s

theorem getElem?_linkBreakpoints (body : Body) (i : Nat) :
    body.linkBreakpoints[i]? = body[i]?.map (body.linkStmt i) := by
  rw [linkBreakpoints, getElem?_mapIdx]
  refine congrArg (Option.map · body[i]?) (funext fun s => ?_)
  cases s <;> rfl

/-- Links do not change what a search finds. -/
theorem search_linkBreakpoints (body : Body) (pending unseen : List Nat) :
    search body.linkBreakpoints pending unseen = search body pending unseen := by
  fun_induction search body pending unseen with
  | case1 => rw [search]
  | case2 unseen i rest hi b hb ih =>
    have hlinked := getElem?_linkBreakpoints body i
    rw [hb] at hlinked
    rw [search_breakpoint hi hlinked, ih]
  | case3 unseen i rest hi s hnot hs ih =>
    have hlinked := getElem?_linkBreakpoints body i
    have hkept : body.linkStmt i s = s := by
      cases s with
      | breakpoint b => exact absurd rfl (hnot b)
      | _ => rfl
    rw [hs, Option.map_some, hkept] at hlinked
    rw [search_stmt hi hlinked hnot, ih]
  | case4 unseen i rest hi hnone ih =>
    have hlinked := getElem?_linkBreakpoints body i
    rw [hnone] at hlinked
    rw [search_none hi hlinked, ih]
  | case5 unseen i rest hi ih => rw [search_seen hi, ih]

/-- Every breakpoint of a linked body has the successors that a search in that body finds. -/
theorem successors_linkBreakpoints {b : Breakpoint} (hb : body.linkBreakpoints[i]? = some (.breakpoint b)) :
    b.successors = nextBreakpoints body.linkBreakpoints (i + 1) := by
  have hsame : nextBreakpoints body.linkBreakpoints (i + 1) = nextBreakpoints body (i + 1) := by
    rw [nextBreakpoints, search_linkBreakpoints, linkBreakpoints, length_mapIdx]
    rfl
  rw [getElem?_linkBreakpoints, Option.map_eq_some_iff] at hb
  obtain ⟨s, -, hs⟩ := hb
  rw [hsame]
  cases s with
  | breakpoint b₀ =>
    cases hs
    rfl
  | _ => exact nomatch hs

/-- A pass over expressions leaves the rest of a body alone, whatever it does to them. -/
theorem skeletons_run_mapExprM (f : Expr → PassM Expr) (body : Body) (p : Pass) :
    skeletons ((body.mapExprM f).run p).1 = body.skeletons := by
  induction body generalizing p with
  | nil => rfl
  | cons s rest ih =>
    cases hrun : (s.mapExprM f).run p with
    | mk s' q =>
      have hs : s'.skeleton = s.skeleton := by
        cases hx : s.expr? with
        | none =>
          rw [Stmt.run_mapExprM_none p hx, Prod.mk.injEq] at hrun
          rw [← hrun.1]
        | some x =>
          cases hf : (f x).run p with
          | mk x' q' =>
            rw [Stmt.run_mapExprM_some hx hf, Prod.mk.injEq] at hrun
            rw [← hrun.1, Stmt.skeleton_withExpr (by rw [hx]; rfl)]
      rw [mapExprM, Pass.run_bind_of hrun]
      show skeletons (s' :: ((mapExprM f rest).run q).1) = _
      rw [skeletons, map_cons, hs]
      exact congrArg (s.skeleton :: ·) (ih q)

end Body

namespace Procedure

open Pass

/-- A stage of a run that ends well ends well itself. -/
theorem exists_of_run_mk_bind {α β : Type} {x : PassM (Except Failure α)} {f : α → ExceptT Failure PassM β}
    {p q : Pass} {b : β} (h : (ExceptT.mk x >>= f).run.run p = (.ok b, q)) :
    ∃ a p', x.run p = (.ok a, p') ∧ (f a).run.run p' = (.ok b, q) := by
  cases hx : x.run p with
  | mk result p' =>
    cases result with
    | error e =>
      rw [run_mk_bind_error hx] at h
      exact nomatch h
    | ok a =>
      rw [run_mk_bind_ok hx] at h
      exact ⟨a, p', rfl, h⟩

theorem eq_of_run_settle {α : Type} {a b : α} {p q : Pass} (h : (settle a).run p = (.ok b, q)) : b = a := by
  have hget : (get : PassM Pass).run p = (p, p) := rfl
  rw [settle, run_bind_of hget] at h
  split at h
  · cases h
  · cases h
    rfl

/-- Counting that ends well leaves the jumps linked. -/
theorem isLinked_of_countUses {body counted : Body} {p q : Pass}
    (h : (countUses body).run p = (.ok counted, q)) : counted.IsLinked := by
  have hm : body.missing = [] := by
    cases hm : body.missing with
    | nil => rfl
    | cons name rest =>
      obtain ⟨q', hq⟩ := run_countUses_error hm p
      rw [hq] at h
      exact nomatch h
  rw [countUses, Body.findIdx?_isDangling_eq_none hm] at h
  have hsk := Body.skeletons_run_mapExprM count body p
  cases hrun : (body.mapExprM count).run p with
  | mk body' p' =>
    rw [hrun] at hsk
    dsimp only at h
    rw [run_bind_of hrun] at h
    cases h
    refine Body.linked_linkJumps ?_
    rw [Body.missing_of_outlines (Body.outlines_of_skeletons hsk), hm]

theorem skeletons_of_retainUses {body retained : Body} {p q : Pass}
    (h : (retainUses body >>= settle).run p = (.ok retained, q)) : retained.skeletons = body.skeletons := by
  cases hrun : (retainUses body).run p with
  | mk body' p' =>
    rw [run_bind_of hrun] at h
    rw [eq_of_run_settle h, ← Body.skeletons_run_mapExprM _ body p]
    exact congrArg (Body.skeletons ·.1) hrun.symm

/-- A body that passes all stages has its jumps linked and then its breakpoints. -/
theorem exists_of_run_passes {body result : Body} {p q : Pass} (h : (passes body).run.run p = (.ok result, q)) :
    ∃ retained : Body, retained.IsLinked ∧ result = retained.linkBreakpoints := by
  rw [passes] at h
  obtain ⟨placed, p₁, -, h₁⟩ := exists_of_run_mk_bind h
  obtain ⟨counted, p₂, hcounted, h₂⟩ := exists_of_run_mk_bind h₁
  obtain ⟨settled, p₃, hsettled, h₃⟩ := exists_of_run_mk_bind h₂
  obtain ⟨retained, p₄, hretained, h₄⟩ := exists_of_run_mk_bind h₃
  rw [eq_of_run_settle hsettled] at hretained
  refine ⟨retained, (isLinked_of_countUses hcounted).of_skeletons (skeletons_of_retainUses hretained), ?_⟩
  have hget : ∀ (f : Pass → ExceptT Failure PassM Body) (p : Pass),
      (get >>= f).run.run p = (f p).run.run p := fun _ _ => rfl
  rw [hget] at h₄
  cases hfault : retained.verifySharing p₄.scope with
  | mk fault scope =>
    rw [hfault] at h₄
    cases fault with
    | some f => cases h₄
    | none =>
      cases h₄
      rfl

/-- What resolving leaves, of whatever body it accepts. -/
theorem exists_of_resolve {p : Procedure} {s : Scope} {r : Resolved} (h : (p.resolve s).1 = .ok r) :
    ∃ retained : Body, retained.IsLinked ∧ r.body = retained.linkBreakpoints := by
  unfold resolve at h
  split at h
  · exact nomatch h
  · cases hrun : (passes p.body).run.run ({ scope := ⟨s.operands.copies, s.numbered⟩ } : Pass) with
    | mk result q =>
      rw [hrun] at h
      cases result with
      | error f => exact nomatch h
      | ok body =>
        cases h
        exact exists_of_run_passes hrun

/-- The successors of a breakpoint are the breakpoints that control comes to from behind it without passing another
one, each of them once. Every jump has its edge, to a label of the body, and the search for them ends, whatever the
jumps. -/
theorem resolve_successors {p : Procedure} {s : Scope} {r : Resolved} (hr : (p.resolve s).1 = .ok r) {i : Nat}
    {b : Breakpoint} (hb : r.body[i]? = some (.breakpoint b)) :
    (∃ places : List Nat, places.Nodup ∧
      (∀ j, j ∈ places ↔ r.body.StopsAt j ∧ r.body.ComesTo (i + 1) j) ∧
      List.Forall₂ r.body.HasId places b.successors) ∧
    (∀ k j, r.body[k]? = some (.jump j) → ∃ t l, j.target = some t ∧ r.body[t]? = some (.label l) ∧
      l.name = j.label ∧ r.body.Flows k t) ∧
    (((Body.Search.advance r.body)^[2 * List.length r.body + 1] (.start r.body (i + 1))).pending = [] ∧
      ((Body.Search.advance r.body)^[2 * List.length r.body + 1] (.start r.body (i + 1))).found = b.successors) := by
  obtain ⟨retained, hlinked, hbody⟩ := exists_of_resolve hr
  have hsuccessors : b.successors = Body.nextBreakpoints r.body (i + 1) := by
    rw [hbody] at hb ⊢
    exact Body.successors_linkBreakpoints hb
  have hjumps : r.body.IsLinked := by
    rw [hbody]
    exact hlinked.of_skeletons (Body.skeletons_linkBreakpoints retained)
  rw [hsuccessors]
  refine ⟨Body.nextBreakpoints_spec r.body (i + 1), ?_, Body.Search.iterate_advance_start r.body (i + 1)⟩
  intro k j hj
  obtain ⟨t, l, ht, hl, hname⟩ := hjumps.target j (List.mem_of_getElem? hj)
  exact ⟨t, l, ht, hl, hname, .jump hj ht (List.getElem?_eq_some_iff.1 hl).1⟩

/-- A loop around a breakpoint, another one that passes none, and a breakpoint that is out of reach. -/
def spinning : Procedure where
  name := "main"
  seqNo := 1
  body := [.label ⟨".top", 0, []⟩, .breakpoint ⟨7, "", 0, 0, false, [], 0⟩, .label ⟨".spin", 0, []⟩,
    .jump ⟨".top", .ifZero, none, none, none⟩, .jump ⟨".spin", .always, none, none, none⟩,
    .breakpoint ⟨8, "", 0, 0, false, [], 0⟩]

/-- The breakpoint in a loop follows itself. -/
theorem resolve_successors_spinning :
    ∃ r b, (spinning.resolve ⟨[], 0⟩).1 = .ok r ∧ r.body[1]? = some (.breakpoint b) ∧ b.successors = [7] ∧
      ∃ places : List Nat, places.Nodup ∧ (∀ j, j ∈ places ↔ r.body.StopsAt j ∧ r.body.ComesTo 2 j) ∧
        List.Forall₂ r.body.HasId places b.successors := by
  obtain ⟨r, b, hr, hb, hfound⟩ : ∃ r b, (spinning.resolve ⟨[], 0⟩).1 = .ok r ∧
      r.body[1]? = some (.breakpoint b) ∧
      ((Body.Search.advance r.body)^[2 * List.length r.body + 1] (.start r.body 2)).found = [7] :=
    ⟨_, _, rfl, rfl, rfl⟩
  obtain ⟨hplaces, -, -, hsuccessors⟩ := resolve_successors hr hb
  exact ⟨r, b, hr, hb, hsuccessors.symm.trans hfound, hplaces⟩

end Procedure
end Firmware
