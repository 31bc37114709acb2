import Firmware.Template.Store

/-!
# The cache of templates

Templates that have been read are kept by hash, so that the builds of a session read each of them
once. An entry serves a request only when it was made for the same target; so does what a store
returns. The cache is emptied when a template beyond its bound arrives. A template without a hash
is read every time, and a store that fails is passed over.
-/

namespace Firmware

/-- Templates in memory, by hash. -/
structure TemplateCache where
  entries : List (String × Instance) := []
  /-- How many templates have been read. -/
  reads : Nat := 0
deriving DecidableEq, Repr

namespace TemplateCache

/-- The most entries that are kept. -/
def capacity : Nat := 10

def size (c : TemplateCache) : Nat := c.entries.length

def find? (c : TemplateCache) (sha : String) : Option Instance := c.entries.lookup sha

/-- An empty cache that goes on counting. -/
def cleared (c : TemplateCache) : TemplateCache := { c with entries := [] }

/-- Makes `i` the entry of a hash. A hash beyond the bound empties the cache first. -/
def put (c : TemplateCache) (sha : String) (i : Instance) : TemplateCache :=
  if (c.find? sha).isSome then
    { c with entries := c.entries.map fun e => if e.1 == sha then (sha, i) else e }
  else if capacity ≤ c.size then { c with entries := [(sha, i)] }
  else { c with entries := c.entries ++ [(sha, i)] }

def read (c : TemplateCache) (t : Target) (e : Extension) :
    Except Failure Instance × TemplateCache :=
  match Template.parse t e with
  | .error f => (.error f, c)
  | .ok template => (.ok ⟨.read c.reads, template⟩, { c with reads := c.reads + 1 })

/-- What the store has for a hash, if it serves the target. -/
def loadStored {σ : Type} (store : StoreAccess σ) (t : Target) (sha : String) (s : σ) :
    Option Instance × σ :=
  match store.load sha s with
  | (.ok (some i), s) => (if i.template.target == t then some i else none, s)
  | (_, s) => (none, s)

/-- The template of an extension for a target: from the cache, from the store, or read. -/
def setup {σ : Type} (store : Option (StoreAccess σ)) (t : Target) (e : Extension)
    (c : TemplateCache) (s : σ) : Except Failure Instance × TemplateCache × σ :=
  if e.sha.isEmpty then
    let (r, c) := c.read t e
    (r, c, s)
  else
    match (c.find? e.sha).filter (·.template.target == t) with
    | some i => (.ok i, c, s)
    | none =>
      let (stored, s) := match store with
        | some store => loadStored store t e.sha s
        | none => (none, s)
      match stored with
      | some i => (.ok i, c.put e.sha i, s)
      | none =>
        match c.read t e with
        | (.error f, c) => (.error f, c, s)
        | (.ok i, c) =>
          let s := match store with
            | some store => (store.save i s).2
            | none => s
          (.ok i, c.put e.sha i, s)

end TemplateCache
end Firmware
