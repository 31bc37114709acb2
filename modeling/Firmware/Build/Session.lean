import Firmware.Build.Output
import Firmware.Template.Cache

/-!
# Sessions

A session builds the variants of a program one after the other and shares a cache of templates
between them. A variant that fails is recorded as a diagnostic, and the others are still built. A
variant that is disabled gets an image that says so.
-/

namespace Firmware

/-- One build of a program with a particular template; the main build has the empty name. -/
structure Variant where
  name : String := ""
  target : Target
  extension : Extension
  program : Program
  state : BuildState := {}
deriving DecidableEq, Repr

/-- What a session works with: an assembler, a store of templates and an output. -/
structure Workshop (m : Type → Type) (σ ω : Type) where
  assembler : Assembler m
  store : Option (StoreAccess σ) := none
  output : Option (OutputAccess ω) := none

structure Session (σ ω : Type) where
  cache : TemplateCache := {}
  store : σ
  output : ω
  /-- The finished builds in order. -/
  results : List BuildResult := []
  diagnostics : List Diagnostic := []

namespace Session

variable {m : Type → Type} {σ ω : Type}

/-- The name under which a file of a variant is written. -/
def variantPath (variant name : String) : String :=
  if variant.isEmpty then name else Path.join [variant, name]

/-- Writes files one after the other; the first failure ends it. -/
def writeAll (access : OutputAccess ω) (variant : String) :
    OutputFiles → ω → Except Failure Unit × ω
  | [], s => (.ok (), s)
  | (name, content) :: rest, s =>
    match access.write (variantPath variant name) content s with
    | (.error f, s) => (.error f, s)
    | (.ok (), s) => writeAll access variant rest s

def writeFiles (w : Workshop m σ ω) (r : BuildResult) (s : Session σ ω) :
    Except Failure BuildResult × Session σ ω :=
  match w.output with
  | none => (.ok r, s)
  | some access =>
    let (written, output) := writeAll access r.variant r.files.sorted s.output
    (written.map fun () => r, { s with output })

def disabledText (v : Variant) : String :=
  "variant " ++ v.name ++ " disabled by dependencies: " ++ v.extension.disabledBy

/-- The build of a variant that is disabled: an image that holds the reason. -/
def disabledResult (v : Variant) : BuildResult :=
  let content := Utf8.encode (disabledText v ++ "\n")
  { variant := v.name
    imageName := v.target.outputName
    image := .binary content
    files := [(v.target.outputName, content)] }

def buildVariant [Monad m] (w : Workshop m σ ω) (v : Variant) (s : Session σ ω) :
    m (Except Failure BuildResult × Session σ ω) := do
  if !v.extension.disabledBy.isEmpty then
    let s := { s with diagnostics := s.diagnostics ++ [⟨v.name, .user, disabledText v⟩] }
    return writeFiles w (disabledResult v) s
  else
    let (found, cache, store) := s.cache.setup w.store v.target v.extension s.store
    let s := { s with cache, store }
    match found with
    | .error f => return (.error f, s)
    | .ok i =>
      let (built, _) ← Build.run w.assembler i.template v.program v.state
      match built with
      | .error f => return (.error f, s)
      | .ok r => return writeFiles w { r with variant := v.name } s

/-- Builds all variants. Only an access outside a buffer ends the session early. -/
def emit [Monad m] (w : Workshop m σ ω) :
    List Variant → Session σ ω → m (Except Failure (Session σ ω))
  | [], s => return .ok s
  | v :: rest, s => do
    let (built, s) ← buildVariant w v s
    match built with
    | .ok r => emit w rest { s with results := s.results ++ [r] }
    | .error f =>
      if f.isOutOfRange then return .error f
      else
        emit w rest { s with diagnostics := s.diagnostics ++ [Diagnostic.ofFailure v.name f] }

end Session
end Firmware
