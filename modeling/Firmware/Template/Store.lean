import Firmware.Template.Parse

/-!
# Stores of templates

A store keeps templates that have been read, by hash, from one run to the next. An instance is a
template together with where it came from, so that two results can be told to be the same one.
-/

namespace Firmware

/-- Where an instance of a template came from. -/
inductive Origin where
  /-- The template was read for the given time. -/
  | read (n : Nat)
  /-- The template was loaded from a database for the given time. -/
  | loaded (n : Nat)
deriving DecidableEq, Repr

/-- A template and where it came from. -/
structure Instance where
  origin : Origin
  template : Template
deriving DecidableEq, Repr

/-- What a cache asks of a store with states `σ`. -/
structure StoreAccess (σ : Type) where
  /-- The instance stored for a hash, if there is one. -/
  load : String → σ → Except Failure (Option Instance) × σ
  save : Instance → σ → Except Failure Unit × σ

/-! ## In memory -/

/-- A store that hands out the very instances that were saved. -/
structure MemoryStore where
  entries : List (String × Instance) := []
  loads : Nat := 0
  saves : Nat := 0
  failsToLoad : Bool := false
  failsToSave : Bool := false
deriving DecidableEq, Repr

namespace MemoryStore

def access : StoreAccess MemoryStore where
  load sha s :=
    let s := { s with loads := s.loads + 1 }
    if s.failsToLoad then (.error (.storeUnavailable "load failed"), s)
    else (.ok (s.entries.lookup sha), s)
  save i s :=
    let s := { s with saves := s.saves + 1 }
    if s.failsToSave then (.error (.storeUnavailable "save failed"), s)
    else (.ok (), { s with entries := (i.template.sha, i) :: s.entries })

end MemoryStore

/-! ## On disk -/

/-- A store that keeps templates by value. An entry without a template cannot be decoded. -/
structure Database where
  entries : List (String × Option Template) := []
  loads : Nat := 0
deriving DecidableEq, Repr

namespace Database

/-- Stores a value under a hash, in place of an older one. -/
def put (d : Database) (sha : String) (value : Option Template) : Database :=
  { d with entries := (d.entries.filter (·.1 != sha)) ++ [(sha, value)] }

def save (d : Database) (t : Template) : Except Failure Database :=
  if t.sha.isEmpty then .error .storingWithoutKey else .ok (d.put t.sha (some t))

def find (d : Database) (sha : String) : Except Failure (Option Template) :=
  match d.entries.lookup sha with
  | none => .ok none
  | some none => .error .unreadableEntry
  | some (some t) => .ok (some t)

def delete (d : Database) (sha : String) : Database :=
  { d with entries := d.entries.filter (·.1 != sha) }

def hashes (d : Database) : List String := (d.entries.map (·.1)).mergeSort fun a b => a ≤ b

/-- Access to a database: every load gives a new instance. -/
def access : StoreAccess Database where
  load sha d :=
    match d.find sha with
    | .error f => (.error f, d)
    | .ok none => (.ok none, d)
    | .ok (some t) => (.ok (some ⟨.loaded d.loads, t⟩), { d with loads := d.loads + 1 })
  save i d :=
    match d.save i.template with
    | .error f => (.error f, d)
    | .ok d => (.ok (), d)

def readAccess : StoreAccess Database where
  load := access.load
  save _ d := (.error (.storeUnavailable "attempt to write a readonly database (8)"), d)

end Database
end Firmware
