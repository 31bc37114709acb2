import Firmware.CommandLine.World
import Firmware.Files.Connection

/-!
# Opening and managing the store

A store of templates is a database at some address. Opening it connects to the database and makes
its table; a database that was not made here may hold a table of another form, and then some of what
a store is asked for fails. The store is put back to its place when it has changed.
-/

namespace Firmware
namespace CommandLine

/-! ## Places -/

/-- The path of the store that is used when no option names one. -/
def defaultStorePath (e : Environment) : Except Failure String :=
  if !e.storePath.isEmpty then .ok e.storePath
  else if !e.cacheHome.isEmpty then
    if Path.isAbsolute e.cacheHome then
      .ok (Path.join [e.cacheHome, "flashlink", "templates.db"])
    else .error .relativeCacheDirectory
  else if !e.home.isEmpty then
    .ok (Path.join [e.home ++ "/.cache", "flashlink", "templates.db"])
  else .error .noCacheDirectory

def longestDatabasePath : Nat := 512

def placeText (place : FileTree.Place) : String := "/" ++ String.intercalate "/" place

/-- The place of a database by its path. Every place on the way has to be short enough, and at the
end there has to be room for the journal. -/
def databasePlace (t : FileTree) (path : String) : Option FileTree.Place := do
  let place ← (Path.components path).foldlM (fun place part =>
    (t.stepByText place part).filter fun next =>
      (placeText next).utf8ByteSize < longestDatabasePath) (t.start path)
  if (placeText place ++ Connection.journalSuffix).utf8ByteSize ≤ longestDatabasePath then
    some place
  else none

/-- The name of a file beside a database, by what is added to the name of the database. -/
def nameBeside (place : FileTree.Place) (suffix : String) : String :=
  (place.getLast?).getD "" ++ suffix

def hasJournal (place : FileTree.Place) : Bool :=
  (Path.nameFault? (nameBeside place Connection.journalSuffix)).isNone

def isThere (t : FileTree) (path : String) : Bool :=
  match t.resolve path with
  | .ok place => (t.find? place).isSome
  | .error _ => false

/-- The file tree with the file of a database in it, which is made where the address allows. -/
def touchDatabase (t : FileTree) (a : DatabaseAddress) (place : FileTree.Place) :
    Except Failure (FileTree × FileTree.Node) :=
  if a.model.any (!isThere t ·) then .error (.connectingStore .noModel)
  else
    match t.find? place with
    | some .directory => .error (.connectingStore .cannotOpen)
    | some node => .ok (t, node)
    | none =>
      if a.mode == .creating && t.find? place.dropLast == some .directory then
        .ok (t.put place (.file []), .file [])
      else .error (.connectingStore .cannotOpen)

/-- What a node holds as a database file. A database has three pages: the description of the table
of templates, the table, and its index. -/
def imageIn : FileTree.Node → Except DatabaseFault DatabaseFile.Image
  | .directory => .error .cannotOpen
  | .file content => DatabaseFile.Image.read content
  | .database _ =>
    let table : DatabaseFile.TableEntry := { name := Utf8.encode DatabaseFile.Image.tableName }
    .ok { pages := 3, schema := .ok { tables := [table] } }

def connectionTo (t : FileTree) (a : DatabaseAddress) (place : Option FileTree.Place)
    (node : FileTree.Node) : Connection :=
  let hasLog := match node with
    | .file content => DatabaseFile.Header.hasLog content
    | _ => false
  { image := if hasLog && !a.canLog && !a.isImmutable then .error .noJournal else imageIn node
    hasLog
    isWritable := a.isWritable
    isKept := place.isSome
    canJournal := place.all hasJournal
    canLog := a.canLog
    isThere := fun path => !a.isInMemory && isThere t path }

/-- The entries of a table that was not made here. Their data decodes to no template. -/
def storedEntries (table : DatabaseFile.StoredTable) : List (String × Option Template) :=
  table.hashes.filterMap fun sha => sha.map fun sha => (Utf8.display sha, none)

/-- What goes wrong in a table that was not made here. -/
def storeFaults (table : DatabaseFile.StoredTable) : StoreFaults :=
  let missing (name : String) : Option DatabaseFault :=
    if table.columns.contains (Utf8.encode name) then none
    else some (.statement (.noSuchColumn name))
  let broken : Option DatabaseFault := if table.isWhole then none else some .malformed
  { list := missing "sha" <|> broken
    isMissingHash := table.hashes.any (·.isNone)
    load := missing "data" <|> missing "sha"
    delete := missing "sha" <|> broken }

/-- The store of a connection whose database has its table. -/
def storeOf (c : Connection) (place : Option FileTree.Place) (node : FileTree.Node) : OpenStore :=
  let table := c.image.toOption.bind (·.templates)
  let isFrozen := (c.image.toOption.map (·.isFrozen)).getD false
  let database : Database := match node with
    | .database d => d
    | _ => { entries := (table.map storedEntries).getD [] }
  { place, database
    isWritable := c.isWritable && !c.isQueryOnly && !isFrozen
    leftover := c.remains
    faults := (table.map storeFaults).getD {} }

/-- Puts files beside a database, by what is added to its name. -/
def leave (place : FileTree.Place) (leftover : List (String × Bytes)) : Command Unit :=
  for (suffix, content) in leftover do
    let beside := place.dropLast ++ [nameBeside place suffix]
    modify fun w => { w with files := w.files.put beside (.file content) }

/-- Lets a connection act and keeps the files that it leaves. A fault is told as `failure`. -/
def act (place : Option FileTree.Place) (failure : DatabaseFault → Failure)
    (action : Connection.Action Unit) (c : Connection) : Command Connection := do
  let (done, c) := action.run c
  if let some place := place then leave place c.leftover
  match done with
  | .error f => throw (failure f)
  | .ok () => return c

def connect (a : DatabaseAddress) (place : Option FileTree.Place) (node : FileTree.Node) :
    Command OpenStore := do
  let start := connectionTo (← get).files a place node
  let c ← act place .connectingStore (Connection.configure a) start
  let hadTable := (c.image.toOption.bind (·.schema.toOption)).any fun s =>
    (s.table? (Utf8.encode DatabaseFile.Image.tableName)).isSome
  let c ← act place .creatingTable Connection.createTable c
  let store := storeOf c place node
  match place with
  | some p =>
    if !hadTable then
      modify fun w => { w with files := w.files.put p (.database store.database) }
  | none => pure ()
  return store

def openDatabase (a : DatabaseAddress) : Command OpenStore := do
  if a.isUnkept then connect a none (.file [])
  else
    let w ← get
    let some place := databasePlace w.files a.path | throw (.connectingStore .cannotOpen)
    let (files, node) ← ExceptT.mk (pure (touchDatabase w.files a place))
    set { w with files }
    connect a (some place) node

/-- Opens the store at a path and makes its database if there is none. The directory that the text
of the path names is made first. -/
def openAt (path : String) : Command OpenStore := do
  let w ← get
  match w.files.makeDirectories (Path.parent path) with
  | .error f => throw (.creatingStoreDirectory f)
  | .ok files =>
    set { w with files }
    match DatabaseAddress.parse path with
    | .error f => throw (.connectingStore f)
    | .ok address => openDatabase address

def openStore (e : Environment) (path : String) : Command OpenStore := do
  if !path.isEmpty then openAt path
  else
    match defaultStorePath e with
    | .error f => throw f
    | .ok path => openAt path

/-- Puts a database back to where it is kept, if it has changed. -/
def keep (s : OpenStore) : Command Unit :=
  match s.place with
  | none => pure ()
  | some place =>
    if s.database.entries == s.saved then pure ()
    else do
      modify fun w => { w with files := w.files.put place (.database s.database) }
      leave place s.leftover

/-! ## Managing the store -/

def OpenStore.find (s : OpenStore) (sha : String) : Except Failure (Option Template) :=
  match s.faults.load with
  | some f => .error (.queryingEntry f)
  | none => s.database.find sha

def storedLine (s : OpenStore) (sha : String) : String :=
  match s.find sha with
  | .error f => sha ++ "  (unreadable: " ++ f.message ++ ")\n"
  | .ok none => sha ++ "  \n"
  | .ok (some t) => sha ++ "  " ++ t.format ++ "\n"

def storeListing (s : OpenStore) : String :=
  let hashes := s.database.hashes
  String.join (hashes.map (storedLine s)) ++ Numeral.decimal hashes.length ++ " templates\n"

def listHashes (s : OpenStore) : Command (List String) :=
  match s.faults.list with
  | some f => throw (.listingEntries f)
  | none => if s.faults.isMissingHash then throw .missingHash else pure s.database.hashes

/-- Why an entry cannot be deleted. -/
def OpenStore.deletionFault (s : OpenStore) : Option DatabaseFault :=
  s.faults.delete <|> if s.isWritable then none else some .readOnly

def manageStore (e : Environment) (path : String) (arguments : List String) : Command Unit := do
  match arguments with
  | [] => throw .cacheNeedsSubcommand
  | name :: rest =>
    let s ← openStore e path
    match name with
    | "list" =>
      if !rest.isEmpty then throw .cacheListTakesNoArguments
      else
        discard (listHashes s)
        print (storeListing s)
    | "clear" =>
      let hashes ← if rest.isEmpty then listHashes s else pure rest
      match s.deletionFault, hashes with
      | some f, sha :: _ => throw (.deletingEntry sha f)
      | _, _ =>
        keep { s with database := hashes.foldl Database.delete s.database }
        print ("removed " ++ Numeral.decimal hashes.length ++ " templates\n")
    | _ => throw (.unknownCacheSubcommand name)

end CommandLine
end Firmware
