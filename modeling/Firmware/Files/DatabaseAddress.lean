import Firmware.Failure
import Firmware.Statement.Pragma
import Firmware.Text.Blank
import Firmware.Text.LetterCase

/-!
# Addresses of databases

A database is named by a path, or by a text that starts with `file:` and is read as a URI. Behind a
question mark stand options. Those of a path are about the connection only and are cut off; those
of a URI also say how the file is opened. An address can name a database that is not kept: one
without a name, `:memory:`, or one that an option or its file system keeps in memory. Some options
are statements, which are carried out once the file is open and before the other options count.
-/

namespace Firmware

inductive OpenMode where
  | readOnly
  /-- For reading and writing; the file has to be there. -/
  | writable
  /-- For reading and writing; the file is made when it is not there. -/
  | creating
  | memory
deriving DecidableEq, Repr

namespace OpenMode

def ofName? (name : Bytes) : Option OpenMode :=
  [("ro", OpenMode.readOnly), ("rw", .writable), ("rwc", .creating), ("memory", .memory)].findSome?
    fun (text, mode) => if Utf8.encode text == name then some mode else none

/-- How much a mode asks for. -/
def demand : OpenMode → Nat
  | .memory => 0
  | .readOnly => 1
  | .writable => 2
  | .creating => 3

/-- Whether one mode may be followed by another: access is never widened, but memory gives way to
everything. -/
def allows (current next : OpenMode) : Bool := current == .memory || next.demand ≤ current.demand

end OpenMode

structure DatabaseAddress where
  /-- The path of the file; empty for a database that has none. -/
  path : String
  /-- The file system that keeps the file. -/
  system : Bytes := Utf8.encode "unix"
  mode : OpenMode := .creating
  /-- The file is taken never to change. -/
  isImmutable : Bool := false
  /-- The file is used without locks. -/
  isUnlocked : Bool := false
  /-- The file that a new one takes its permissions from. -/
  model : Option String := none
  /-- The statements of the options, in the order in which they are carried out. -/
  pragmas : List Bytes := []
  /-- What is wrong with the other options of the connection, once the statements are done. -/
  fault : Option DatabaseFault := none
deriving DecidableEq, Repr

namespace DatabaseAddress

/-! ## URIs -/

/-- Reads a part of a URI up to a byte that ends it, without its escapes. What follows an escaped
zero in the part is dropped. Gives the part and the rest, from the byte that ends it. -/
def readPart (ends : UInt8 → Bool) : Bytes → Bytes × Bytes
  | [] => ([], [])
  | 0x25 :: high :: low :: rest =>
    match Query.octet? high low with
    | some 0 => ([], rest.dropWhile (!ends ·))
    | some b =>
      let (part, rest) := readPart ends rest
      (b :: part, rest)
    | none =>
      let (part, rest) := readPart ends (high :: low :: rest)
      (0x25 :: part, rest)
  | b :: rest =>
    if ends b then ([], b :: rest)
    else
      let (part, rest) := readPart ends rest
      (b :: part, rest)

/-- The rest of a part is not longer than where it was read from. -/
theorem length_readPart_le (ends : UInt8 → Bool) (b : Bytes) :
    (readPart ends b).2.length ≤ b.length := by
  fun_induction readPart ends b with
  | case1 => simp
  | case2 high low rest h =>
    exact Nat.le_trans (List.dropWhile_sublist _).length_le (by simp; omega)
  | case3 high low rest b h part rest' hr ih => simp_all; omega
  | case4 high low rest h part rest' hr ih => simp_all; omega
  | case5 b rest h => simp
  | case6 b rest h h' part rest' hr ih => simp_all; omega

/-- The options of a URI, from behind its question mark. An option without a name does not count.
-/
def readOptions (b : Bytes) : List (Bytes × Bytes) :=
  let name := readPart (fun x => x == 0x3D || x == 0x26) b
  match h : name.2 with
  | [] => if name.1.isEmpty then [] else [(name.1, [])]
  | sign :: rest =>
    have hn := length_readPart_le (fun x => x == 0x3D || x == 0x26) b
    have hv := length_readPart_le (· == 0x26) rest
    have hd := (List.dropWhile_sublist (l := rest) (· != 0x26)).length_le
    if sign == 0x26 then
      if name.1.isEmpty then readOptions rest else (name.1, []) :: readOptions rest
    else if name.1.isEmpty then readOptions ((rest.dropWhile (· != 0x26)).drop 1)
    else
      let value := readPart (· == 0x26) rest
      (name.1, value.1) :: readOptions (value.2.drop 1)
termination_by b.length
decreasing_by
  all_goals
    simp only [name, h, List.length_cons, List.length_drop] at *
    omega

/-- The authority of a URI and what follows it. -/
def authority (b : Bytes) : Bytes × Bytes :=
  match b with
  | 0x2F :: 0x2F :: rest => (rest.takeWhile (· != 0x2F), rest.dropWhile (· != 0x2F))
  | _ => ([], b)

/-- Takes an option into account. -/
def applyOption (a : DatabaseAddress) (option : Bytes × Bytes) :
    Except DatabaseFault DatabaseAddress :=
  let (name, value) := option
  if name == Utf8.encode "vfs" then .ok { a with system := value }
  else if name == Utf8.encode "cache" then
    if ["shared", "private"].any (Utf8.encode · == value) then .ok a else .error .refusedAddress
  else if name == Utf8.encode "mode" then
    match OpenMode.ofName? value with
    | none => .error .refusedAddress
    | some mode => if a.mode.allows mode then .ok { a with mode } else .error .refusedMode
  else .ok a

def ofUri (b : Bytes) (system : Bytes) : Except DatabaseFault DatabaseAddress :=
  let (host, rest) := authority b
  if !host.isEmpty && host != Utf8.encode "localhost" then .error .refusedAddress
  else
    let (path, rest) := readPart (· == 0x3F) (rest.takeWhile (· != 0x23))
    let options := readOptions (rest.drop 1)
    let first (name : String) : Option Bytes := (Query.values name options).head?
    options.foldlM applyOption
      { path := Utf8.display path
        system
        isImmutable := (first "immutable").any Statement.saysYes
        isUnlocked := (first "nolock").any Statement.saysYes
        model := (first "modeof").map Utf8.display }

/-! ## Addresses -/

/-- The file systems that there are. -/
def systems : List String := ["unix", "unix-none", "unix-dotfile", "unix-excl", "memdb"]

/-- The file system that the options of a connection ask for; they have to agree. -/
def systemOf (pairs : List (Bytes × Bytes)) : Except DatabaseFault Bytes :=
  let names := Query.values "vfs" pairs
  let asked := names.dropWhile (·.isEmpty)
  match asked with
  | [] => .ok (Utf8.encode "unix")
  | first :: rest =>
    if rest.all (· == first) then .ok first else .error (.conflictingSystems names)

/-- What statements are ordered by: they are compared without letter case and outer blanks. -/
def pragmaKey (statement : Bytes) : String :=
  Text.trim (String.ofList ((Utf8.display statement).toList.map Text.lower))

/-- Whether a statement is carried out before another one. Waiting times go first. -/
def precedes (x y : String) : Bool :=
  if x.startsWith "busy_timeout" then true
  else if y.startsWith "busy_timeout" then false
  else x < y

/-- Puts a statement among others, of which the last one comes first: behind the last of them that
it does not precede. -/
def insertPragma (x : Bytes) : List Bytes → List Bytes
  | [] => [x]
  | y :: rest =>
    if precedes (pragmaKey x) (pragmaKey y) then y :: insertPragma x rest else x :: y :: rest

/-- The statements of the options, in the order in which they are carried out. -/
def orderedPragmas (pairs : List (Bytes × Bytes)) : List Bytes :=
  ((Query.values "_pragma" pairs).foldl (fun done x => insertPragma x done) []).reverse

def connectionFault (pairs : List (Bytes × Bytes)) : Option DatabaseFault :=
  let first (name : String) : Bytes := (Query.values name pairs).headD []
  let timeFormat := first "_time_format"
  let lock := first "_txlock"
  let lower := String.ofList ((Utf8.display lock).toList.map Text.lower)
  if !timeFormat.isEmpty && timeFormat != Utf8.encode "sqlite" then
    some (.unknownOption "_time_format" timeFormat)
  else if !lock.isEmpty && ["deferred", "immediate", "exclusive"].all (· != lower) then
    some (.unknownOption "_txlock" lock)
  else none

def scheme : Bytes := Utf8.encode "file:"

/-- Reads an address. A question mark in front of everything is part of the path. -/
def parse (text : String) : Except DatabaseFault DatabaseAddress := do
  let b := Utf8.encode text
  let path := b.takeWhile (· != 0x3F)
  let hasQuery := !path.isEmpty && path.length < b.length
  let query := if hasQuery then b.drop (path.length + 1) else []
  let pairs ← (Query.parse query).mapError .badQuery
  let system ← systemOf pairs
  let a ← if scheme.isPrefixOf b then ofUri (b.drop scheme.length) system
    else pure { path := if hasQuery then Utf8.display path else text, system }
  if systems.all (Utf8.encode · != a.system) then throw .refusedAddress
  else return { a with pragmas := orderedPragmas pairs, fault := connectionFault pairs }

def isNameless (a : DatabaseAddress) : Bool :=
  a.path.isEmpty || a.path == ":memory:" || a.mode == .memory

def isInMemory (a : DatabaseAddress) : Bool := a.system == Utf8.encode "memdb"

def isUnkept (a : DatabaseAddress) : Bool := a.isNameless || a.isInMemory

def isWritable (a : DatabaseAddress) : Bool :=
  a.mode != .readOnly && (a.isNameless || !a.isImmutable)

/-- Whether changes can be kept in a log: processes have to be able to share it. -/
def canLog (a : DatabaseAddress) : Bool :=
  !a.isUnkept && !a.isImmutable && !a.isUnlocked &&
    ["unix", "unix-excl"].any (Utf8.encode · == a.system)

end DatabaseAddress
end Firmware
