import Firmware.DatabaseFile.Image
import Firmware.DatabaseFile.LogIndex
import Firmware.Files.DatabaseAddress
import Firmware.Files.Tree

/-!
# Connections to databases

A connection carries out the statements of its address one after the other and then makes the table
of templates, unless there is one. Settings that only speed things up have no effect here. What
counts is whether the file can be read and written, how many pages it may have, and what becomes of
the journal that stands beside the file during a change.
-/

namespace Firmware

/-- What becomes of the journal of a change. -/
inductive JournalMode where
  | delete
  | truncate
  | persist
  /-- There is no file for it. -/
  | memory
  /-- Changes are kept in a log instead. -/
  | log
deriving DecidableEq, Repr

def JournalMode.ofName? (name : Bytes) : Option JournalMode :=
  [("delete", JournalMode.delete), ("truncate", .truncate), ("persist", .persist),
    ("memory", .memory), ("off", .memory), ("wal", .log)].findSome?
      fun (text, mode) => if Utf8.encode text == Statement.lower name then some mode else none

structure Connection where
  /-- What the file holds, or why it cannot be read. -/
  image : Except DatabaseFault DatabaseFile.Image := .ok {}
  isWritable : Bool := true
  /-- The file has a place beside which a journal stands. -/
  isKept : Bool := false
  /-- The journal beside the file can be named. -/
  canJournal : Bool := true
  /-- Changes are kept in a log first. -/
  hasLog : Bool := false
  canLog : Bool := false
  isThere : String → Bool := fun _ => false
  isQueryOnly : Bool := false
  /-- The most pages that the file may have. -/
  pageLimit : Option Nat := none
  /-- The encoding of texts is the one of the file. -/
  isEncodingFixed : Bool := false
  journal : JournalMode := .delete
  /-- The most bytes that are left of a journal. -/
  journalLimit : Option Nat := none
  /-- The files that are left beside the database, by what is added to its name. -/
  leftover : List (String × Bytes) := []

namespace Connection

/-- Something that a connection does. What it did before a fault stays done. -/
abbrev Action := ExceptT DatabaseFault (StateM Connection)

/-! ## Reading -/

/-- What is added to the name of a database for the name of its journal. -/
def journalSuffix : String := "-journal"

/-- The files that are left when a log is used that may not be written. -/
def logFiles : List (String × Bytes) := [("-shm", DatabaseFile.LogIndex.empty), ("-wal", [])]

def readImage : Action DatabaseFile.Image := do
  let c ← get
  if c.hasLog && c.canLog && !c.isWritable then set { c with leftover := logFiles }
  match c.image with
  | .ok image => return image
  | .error f => throw f

def readSchema : Action DatabaseFile.Schema := do
  let image ← readImage
  match image.schema with
  | .error f => throw f
  | .ok schema =>
    modify fun c => { c with isEncodingFixed := c.isEncodingFixed || !schema.isEmpty }
    return schema

/-! ## Writing -/

/-- The size of the part of a journal that is left of a change to an empty file. -/
def journalHead : Nat := 512

/-- What a change leaves of its journal. -/
def remains (c : Connection) : List (String × Bytes) :=
  if !c.isKept then []
  else
    match c.journal with
    | .truncate => [(journalSuffix, [])]
    | .persist =>
      [(journalSuffix, List.replicate (min journalHead (c.journalLimit.getD journalHead)) 0)]
    | _ => []

def needsJournal (c : Connection) : Bool :=
  c.isKept && c.journal != .memory && c.journal != .log

/-- Begins a change. The first change of an empty file makes its first page. -/
def write : Action Unit := do
  let c ← get
  if c.isQueryOnly || !c.isWritable then throw .readOnly
  else
    let image ← readImage
    if image.isFrozen then throw .readOnly
    else if image.pages != 0 then pure ()
    else if c.needsJournal && !c.canJournal then throw .noJournal
    else set { c with image := .ok { image with pages := 1 }, leftover := c.remains }

def writePage : Action Unit := do
  write
  let c ← get
  if c.needsJournal && !c.canJournal then throw .noJournal
  else set { c with leftover := c.remains }

def pagesOfTable : Nat := 2

/-- Makes the table of templates. -/
def createTable : Action Unit := do
  let schema ← readSchema
  let name := Utf8.encode DatabaseFile.Image.tableName
  if (schema.table? name).isSome then return
  else if (schema.indexes.lookup name).isSome then
    throw (.statement (.indexExists DatabaseFile.Image.tableName))
  else
    writePage
    let image ← readImage
    let map := if image.isAutoVacuum && image.pages ≤ 1 then 1 else 0
    let needed := image.pages + map + (pagesOfTable - image.freePages)
    if !image.hasSoundCounts then throw .malformed
    else if (← get).pageLimit.any (· < needed) then throw .full
    else if !image.hasSoundEnd then throw .malformed
    else pure ()

/-! ## Pragmas -/

/-- The pragmas for which the tables of the file are looked at. -/
def readingPragmas : List String :=
  ["auto_vacuum", "cache_size", "default_cache_size", "foreign_key_check", "foreign_key_list",
   "incremental_vacuum", "index_info", "index_list", "index_xinfo", "integrity_check",
   "quick_check", "journal_mode", "max_page_count", "optimize", "page_count", "synchronous",
   "table_info", "table_list", "table_xinfo", "wal_checkpoint"]

def encodings : List String :=
  ["utf8", "utf-8", "utf-16le", "utf-16be", "utf16le", "utf16be", "utf-16", "utf16"]

/-- The tables that every database has. -/
def ownTables : List String :=
  ["sqlite_master", "sqlite_schema", "sqlite_temp_master", "sqlite_temp_schema"]

def expectTable (p : Statement.Pragma) (name : Bytes) : Action Unit := do
  let schema ← readSchema
  let known := ownTables.any (Utf8.encode · == Statement.lower name)
  if known || (p.schema != some .temp && (schema.table? (Statement.lower name)).isSome) then return
  else
    let place := match p.schema with
      | none => ""
      | some .main => "main."
      | some .temp => "temp."
    throw (.statement (.noSuchTable (Utf8.encode place ++ name)))

def asksForVacuum (value : Bytes) : Bool :=
  let name := Statement.lower value
  ["full", "incremental"].any (Utf8.encode · == name) ||
    [some 1, some 2].contains (Statement.leadingInt32? value)

/-- Sets what becomes of the journal. Going over to a log is a change of the file. -/
def setJournal (mode : JournalMode) : Action Unit := do
  let c ← get
  if c.hasLog then return
  else if mode != .log then set { c with journal := mode }
  else if c.canLog && c.journal != .log then
    writePage
    modify fun c => { c with journal := .log }
  else return

/-- Sets the most pages that the file may have; it keeps those that it has. -/
def setPageLimit (value : Bytes) : Action Unit := do
  let image ← readImage
  match Statement.int64? value with
  | some n =>
    if 0 < n then modify fun c => { c with pageLimit := some (max image.pages n.toNat) }
    else return
  | none => return

/-- Asks for pages that say where others are; only an empty file can get them. -/
def setAutoVacuum (value : Bytes) : Action Unit := do
  let image ← readImage
  if asksForVacuum value && image.pages == 0 then
    writePage
    let image ← readImage
    modify fun c => { c with image := .ok { image with isAutoVacuum := true } }
  else return

def setTo (p : Statement.Pragma) (value : Bytes) : String → Action Unit
  | "query_only" => modify fun c => { c with isQueryOnly := Statement.saysYes value }
  | "application_id" | "default_cache_size" | "schema_version" | "user_version" => writePage
  | "max_page_count" => setPageLimit value
  | "auto_vacuum" => setAutoVacuum value
  | "journal_mode" =>
    match JournalMode.ofName? value with
    | some mode => setJournal mode
    | none => return
  | "journal_size_limit" =>
    modify fun c => { c with journalLimit := match Statement.int64? value with
      | some n => if 0 ≤ n then some n.toNat else none
      | none => some 0 }
  | "encoding" => do
    if !(← get).isEncodingFixed && encodings.all (Utf8.encode · != Statement.lower value) then
      throw (.statement (.unsupportedEncoding value))
    else return
  | "foreign_key_check" => expectTable p value
  | "integrity_check" | "quick_check" =>
    if (Statement.leadingInt32? value).isSome then return else expectTable p value
  | "temp_store_directory" => do
    if value.isEmpty || (← get).isThere (Utf8.display value) then return
    else throw (.statement .unwritableDirectory)
  | _ => return

def ask : String → Action Unit
  | "application_id" | "schema_version" | "user_version" => discard readImage
  | "encoding" => discard readSchema
  | _ => return

/-- The pragmas of the connection itself; the other ones are about one of its databases. -/
def globalPragmas : List String :=
  ["query_only", "encoding", "foreign_key_check", "integrity_check", "quick_check",
   "temp_store_directory"]

def changesHeader (p : Statement.Pragma) : Bool :=
  p.name == Utf8.encode "incremental_vacuum" ||
    (p.value.isSome && ["application_id", "default_cache_size", "schema_version",
      "user_version"].any (Utf8.encode · == p.name))

/-- Carries out a pragma about the temporary database, of which nothing else is to be seen. -/
def performAside (p : Statement.Pragma) : Action Unit := do
  if changesHeader p && (← get).isQueryOnly then throw .readOnly

/-- Carries out a pragma. One that is not known does nothing. -/
def perform (p : Statement.Pragma) : Action Unit := do
  let name := Utf8.display p.name
  if readingPragmas.contains name then discard readSchema
  if p.schema == some .temp && !globalPragmas.contains name then performAside p
  else if name == "incremental_vacuum" then write
  else if name == "data_version" || name == "freelist_count" then discard readImage
  else
    match p.value with
    | some value => setTo p value name
    | none => ask name

/-- Carries out the statements of a text. It ends at a zero. -/
def runText (text : Bytes) : Action Unit := do
  for statement in Statement.statements (Statement.tokens (text.takeWhile (· != 0))) do
    match Statement.readStatement statement with
    | .error f => throw (.statement f)
    | .ok none => pure ()
    | .ok (some p) => perform p

/-- Carries out the statements and the other options of an address. -/
def configure (a : DatabaseAddress) : Action Unit := do
  for value in a.pragmas do
    runText (Utf8.encode "pragma " ++ value)
  if let some f := a.fault then throw f

end Connection
end Firmware
