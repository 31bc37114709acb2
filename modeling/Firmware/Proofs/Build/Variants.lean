import Firmware.Build.Session
import Firmware.Proofs.Build.Leftovers
import Firmware.Proofs.Template.Transparency

/-!
# Variants side by side

The variants of a session share its cache. Where a hash stands for one extension they cannot tell: a session gives what
its variants give one by one, in their order (`emit_eq_alone`). What a variant gives by itself does not mention a
session (`share`). Only an access outside a buffer ends a session, and then it is the one that the first such variant
makes by itself.
-/

namespace Firmware

open List

/-- Whether an output in a state of `P` takes every file and stays in `P`. -/
def OutputAccess.Accepts {ω : Type} (access : OutputAccess ω) (P : ω → Prop) : Prop :=
  ∀ name content o, P o → (access.write name content o).1 = .ok () ∧ P (access.write name content o).2

namespace Session

variable {σ ω : Type} {P : ω → Prop}

/-! ## A variant by itself -/

/-- What building a variant comes to where nothing is shared. -/
def outcome (f : Assembler Id) (v : Variant) : Except Failure BuildResult :=
  if v.extension.disabledBy.isEmpty then do
    let t ← Template.parse v.target v.extension
    let r ← (Build.run f t v.program v.state).1
    return { r with variant := v.name }
  else .ok (disabledResult v)

/-- What is said about a variant whether or not its build fails. -/
def notes (v : Variant) : List Diagnostic :=
  if v.extension.disabledBy.isEmpty then [] else [⟨v.name, .user, disabledText v⟩]

/-- The results and the diagnostics of a variant. -/
def share (f : Assembler Id) (v : Variant) : Except Failure (List BuildResult × List Diagnostic) :=
  match outcome f v with
  | .ok r => .ok ([r], notes v)
  | .error e => if e.isOutOfRange then .error e else .ok ([], [Diagnostic.ofFailure v.name e])

/-- The results and the diagnostics of a session. -/
def given (s : Session σ ω) : List BuildResult × List Diagnostic := (s.results, s.diagnostics)

/-- A session in which nothing was built. -/
def fresh (store : σ) (output : ω) : Session σ ω := { store, output }

/-- Results and diagnostics put behind each other. -/
def gather (parts : List (List BuildResult × List Diagnostic)) : List BuildResult × List Diagnostic :=
  (parts.flatMap (·.1), parts.flatMap (·.2))

theorem gather_cons (part : List BuildResult × List Diagnostic) (parts : List (List BuildResult × List Diagnostic)) :
    gather (part :: parts) = (part.1 ++ (gather parts).1, part.2 ++ (gather parts).2) := by
  simp only [gather, flatMap_cons]

/-! ## Writing -/

theorem writeAll_ok {access : OutputAccess ω} (haccess : access.Accepts P) (variant : String) (files : OutputFiles)
    {o : ω} (ho : P o) : ∃ o', writeAll access variant files o = (.ok (), o') ∧ P o' := by
  induction files generalizing o with
  | nil => exact ⟨o, rfl, ho⟩
  | cons file rest ih =>
    obtain ⟨name, content⟩ := file
    obtain ⟨hwrite, hnext⟩ := haccess (variantPath variant name) content o ho
    obtain ⟨o', hrest, ho'⟩ := ih hnext
    refine ⟨o', ?_, ho'⟩
    rw [writeAll, ← hrest]
    generalize access.write (variantPath variant name) content o = written at hwrite
    obtain ⟨result, state⟩ := written
    cases hwrite
    rfl

theorem writeFiles_ok {w : Workshop Id σ ω} (houtput : ∀ access ∈ w.output, access.Accepts P) (r : BuildResult)
    (s : Session σ ω) (hs : P s.output) :
    ∃ output, writeFiles w r s = (.ok r, { s with output }) ∧ P output := by
  unfold writeFiles
  cases haccess : w.output with
  | none => exact ⟨s.output, rfl, hs⟩
  | some access =>
    obtain ⟨output, hwrite, hP⟩ := writeAll_ok (houtput access haccess) r.variant r.files.sorted hs
    refine ⟨output, ?_, hP⟩
    dsimp only
    rw [hwrite]
    rfl

/-! ## Sessions -/

/-- What is true between two builds of a session: all that the cache has was read for a request of `K`, and the output
takes every file. -/
structure Ready (K : Target → Extension → Prop) (P : ω → Prop) (s : Session σ ω) : Prop where
  cache : TemplateCache.Holds K (fun _ _ => none) s.cache s.store
  output : P s.output

variable {K : Target → Extension → Prop} {w : Workshop Id σ ω} {v : Variant} {s : Session σ ω}

/-- A variant gives in a session what it gives by itself, and leaves the session ready for the next one. -/
theorem buildVariant_eq_outcome (hstore : w.store = none) (houtput : ∀ access ∈ w.output, access.Accepts P)
    (hsame : TemplateCache.Determines K) (hK : K v.target v.extension) (hs : Ready K P s) :
    ∃ s', buildVariant w v s = (outcome w.assembler v, s') ∧ Ready K P s' ∧ s'.results = s.results ∧
      s'.diagnostics = s.diagnostics ++ notes v := by
  unfold buildVariant outcome notes
  cases hdisabled : v.extension.disabledBy.isEmpty with
  | false =>
    obtain ⟨output, hwrite, hP⟩ := writeFiles_ok houtput (disabledResult v)
      { s with diagnostics := s.diagnostics ++ [⟨v.name, .user, disabledText v⟩] } hs.output
    exact ⟨_, hwrite, ⟨hs.cache, hP⟩, rfl, rfl⟩
  | true =>
    -- without a store there is nothing to recall
    have hrecalls : ∀ access ∈ w.store, access.Recalls fun (_ : σ) _ => none := by
      simp [hstore]
    have hserves := TemplateCache.serves_setup hrecalls v.target v.extension s.cache s.store
    have hread := hserves.eq_parse hsame hK hs.cache
    have hholds := hserves.holds hK hs.cache
    simp only [Bool.not_true, Bool.false_eq_true, if_false, if_true, append_nil]
    rw [← hread]
    generalize s.cache.setup w.store v.target v.extension s.store = found at hholds
    obtain ⟨found, cache, store⟩ := found
    cases found with
    | error f => exact ⟨_, rfl, ⟨hholds, hs.output⟩, rfl, rfl⟩
    | ok i =>
      -- the state that the build leaves is not looked at
      simp only [Except.map, Except.bind, bind, pure]
      generalize Build.run w.assembler i.template v.program v.state = built
      obtain ⟨built, left⟩ := built
      cases built with
      | error f => exact ⟨_, rfl, ⟨hholds, hs.output⟩, rfl, rfl⟩
      | ok r =>
        obtain ⟨output, hwrite, hP⟩ := writeFiles_ok houtput { r with variant := v.name } { s with cache, store }
          hs.output
        exact ⟨_, hwrite, ⟨hholds, hP⟩, rfl, rfl⟩

/-- A variant whose build fails is not disabled. -/
theorem notes_of_outcome {f : Assembler Id} {e : Failure} (h : outcome f v = .error e) : notes v = [] := by
  unfold outcome at h
  unfold notes
  split at h
  next henabled => rw [if_pos henabled]
  next => exact nomatch h

theorem map_cons_ok {α β : Type} (a : α) (rest : Except Failure (List α)) (g : List α → β) :
    (do let a ← Except.ok a; let l ← rest; pure (a :: l)).map g = rest.map fun l => g (a :: l) := by
  cases rest <;> rfl

theorem mapM_congr_mem {α β : Type} {f g : α → Except Failure β} {l : List α} (h : ∀ a ∈ l, f a = g a) :
    l.mapM f = l.mapM g := by
  induction l with
  | nil => rfl
  | cons a l ih =>
    obtain ⟨ha, hl⟩ := forall_mem_cons.1 h
    rw [mapM_cons, mapM_cons, ha, ih hl]

section

variable (hstore : w.store = none) (houtput : ∀ access ∈ w.output, access.Accepts P)
  (hsame : TemplateCache.Determines K) {vs : List Variant} (hK : ∀ v ∈ vs, K v.target v.extension)
include hstore houtput hsame hK

/-- A session that goes on adds what its variants give by themselves. -/
theorem emit_given (hs : Ready K P s) : (emit w vs s).map given = (vs.mapM (share w.assembler)).map fun parts =>
      (s.results ++ (gather parts).1, s.diagnostics ++ (gather parts).2) := by
  -- on the variants, with `Ready` as the invariant
  induction vs generalizing s with
  | nil =>
    show Except.ok (s.results, s.diagnostics) = .ok (s.results ++ [], s.diagnostics ++ [])
    rw [append_nil, append_nil]
  | cons v rest ih =>
    obtain ⟨hv, hrest⟩ := forall_mem_cons.1 hK
    obtain ⟨s', hbuild, hready, hresults, hdiagnostics⟩ := buildVariant_eq_outcome hstore houtput hsame hv hs
    rw [mapM_cons, share]
    cases houtcome : outcome w.assembler v with
    | ok r =>
      have hemit : emit w (v :: rest) s = emit w rest { s' with results := s'.results ++ [r] } := by
        rw [houtcome] at hbuild
        rw [emit, hbuild]
        rfl
      have hnext : Ready K P { s' with results := s'.results ++ [r] } := ⟨hready.cache, hready.output⟩
      dsimp only
      rw [hemit, ih hrest hnext, map_cons_ok, hresults, hdiagnostics]
      simp only [gather_cons, append_assoc]
    | error f =>
      have hemit : emit w (v :: rest) s = if f.isOutOfRange then .error f else
          emit w rest { s' with diagnostics := s'.diagnostics ++ [Diagnostic.ofFailure v.name f] } := by
        rw [houtcome] at hbuild
        rw [emit, hbuild]
        rfl
      rw [notes_of_outcome houtcome, append_nil] at hdiagnostics
      dsimp only
      rw [hemit]
      split
      · rfl
      · have hnext : Ready K P { s' with diagnostics := s'.diagnostics ++ [Diagnostic.ofFailure v.name f] } :=
          ⟨hready.cache, hready.output⟩
        rw [ih hrest hnext, map_cons_ok, hresults, hdiagnostics]
        simp only [gather_cons, append_assoc, nil_append]

/-- A session that starts fresh gives what its variants give by themselves. -/
theorem emit_fresh (store : σ) {output : ω} (hP : P output) :
    (emit w vs (fresh store output)).map given = (vs.mapM (share w.assembler)).map gather :=
  emit_given hstore houtput hsame hK ⟨⟨fun _ _ h => (nomatch h), fun _ _ h => (nomatch h)⟩, hP⟩

end

theorem determines_of_sha {vs : List Variant} (hsha : ∀ v ∈ vs, ∀ v' ∈ vs, v.extension.sha ≠ "" →
      v.extension.sha = v'.extension.sha → v.extension = v'.extension) :
    TemplateCache.Determines fun t e => ∃ v ∈ vs, v.target = t ∧ v.extension = e := by
  rintro t e e' ⟨v, hv, rfl, rfl⟩ ⟨v', hv', -, rfl⟩ hnamed hsame x hparse
  have hne : v.extension.sha ≠ "" := by
    intro hempty
    rw [hempty] at hnamed
    exact absurd hnamed (by decide)
  rw [← hsha v hv v' hv' hne hsame.symm]
  exact hparse

/-- Builds of more templates than a cache has entries, one of which cannot be read and one of which is disabled, and a
second build of the first template. -/
def mixedVariants : List Variant :=
  let build (name : String) : Variant :=
    { name, target := TemplateCache.vmTarget, program := {}
      extension := TemplateCache.namedExtension name name 0x20000000 }
  let disabled : Variant := { build "f" with extension.disabledBy := "nothing" }
  ["0", "1", "2", "3", "4"].map build ++ [{ build "5" with target := Template.pagedTarget 0 }, disabled] ++
    ["6", "7", "8", "9", "a", "b", "0"].map build

end Session

end Firmware
