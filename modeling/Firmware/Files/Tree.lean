import Firmware.DatabaseFile.Fresh
import Firmware.Files.Path
import Firmware.Template.Store

/-!
# File trees

The files that commands read and write, as a value: directories, files and databases of templates
by place. A relative path starts at the working directory. An operation that cannot be done is
refused the way a file system refuses it.
-/

namespace Firmware
namespace FileTree

/-- What stands at a place of a file tree. -/
inductive Node where
  | directory
  | file (content : Bytes)
  | database (d : Database)
deriving DecidableEq, Repr

/-- The bytes of a node. Of a database only the file of a new one is known. -/
def Node.content : Node → Bytes
  | .directory => []
  | .file content => content
  | .database d => if d.entries.isEmpty then DatabaseFile.Fresh.file else []

/-- A place of a file tree: the components of the path from the root. -/
abbrev Place := List String

end FileTree

/-- A file tree and the working directory. The root and the working directory are directories. -/
structure FileTree where
  nodes : List (FileTree.Place × FileTree.Node) := []
  workingDirectory : FileTree.Place := []
deriving DecidableEq, Repr

namespace FileTree

def find? (t : FileTree) (place : Place) : Option Node :=
  if place.isPrefixOf t.workingDirectory then some .directory else t.nodes.lookup place

def put (t : FileTree) (place : Place) (node : Node) : FileTree :=
  if t.nodes.any (·.1 == place) then
    { t with nodes := t.nodes.map fun e => if e.1 == place then (place, node) else e }
  else { t with nodes := t.nodes ++ [(place, node)] }

/-- The place one component further on. -/
def step (place : Place) (part : String) : Place :=
  if part.isEmpty || part == "." then place
  else if part == ".." then place.dropLast
  else place ++ [part]

def start (t : FileTree) (path : String) : Place :=
  if Path.isAbsolute path then [] else t.workingDirectory

/-- Follows components from a place; all but the last one have to lead to directories. -/
def follow (t : FileTree) : Place → List String → Except PathFault Place
  | place, [] => .ok place
  | place, part :: rest =>
    match t.find? place with
    | some .directory =>
      match Path.nameFault? part with
      | some f => .error f
      | none => follow t (step place part) rest
    | some _ => .error .notDirectory
    | none => .error .missing

/-- The place of a path; nothing needs to be there. -/
def resolve (t : FileTree) (path : String) : Except PathFault Place :=
  match Path.fault? path with
  | some f => .error f
  | none =>
    if path.isEmpty then .error .missing else t.follow (t.start path) (Path.components path)

/-- The place one component further on as far as the text tells, if it can be looked at: it may be
missing, but it cannot be below a file. -/
def stepByText (t : FileTree) (place : Place) (part : String) : Option Place :=
  let next := step place part
  if next.length ≤ place.length then some next
  else
    match t.find? place, Path.nameFault? part with
    | none, none => some next
    | some .directory, none => some next
    | _, _ => none

/-- The place of a path as far as its text tells: a double dot takes back the component in front of
it, whatever that is. -/
def resolveByText (t : FileTree) (path : String) : Option Place :=
  (Path.components path).foldlM t.stepByText (t.start path)

def read (t : FileTree) (path : String) : Except FileFault Bytes :=
  match t.resolve path with
  | .error f => .error ⟨"open", path, f⟩
  | .ok place =>
    match t.find? place with
    | none => .error ⟨"open", path, .missing⟩
    | some .directory => .error ⟨"read", path, .isDirectory⟩
    | some node => .ok node.content

def write (t : FileTree) (path : String) (content : Bytes) : Except FileFault FileTree :=
  match t.resolve path with
  | .error f => .error ⟨"open", path, f⟩
  | .ok place =>
    match t.find? place with
    | some .directory => .error ⟨"open", path, .isDirectory⟩
    | _ => .ok (t.put place (.file content))

/-- Makes the directories that the components lead through, where `done` are the components that
led to `place`. -/
def makeOnward (t : FileTree) (place : Place) (done : List String) :
    List String → Except FileFault FileTree
  | [] => .ok t
  | part :: rest =>
    let place := step place part
    let done := done ++ [part]
    let path := String.intercalate "/" done
    match Path.nameFault? part <|> Path.fault? path with
    | some f => .error ⟨"mkdir", path, f⟩
    | none =>
      match t.find? place with
      | some .directory => makeOnward t place done rest
      | some _ => .error ⟨"mkdir", path, .notDirectory⟩
      | none => makeOnward (t.put place .directory) place done rest

def makeDirectories (t : FileTree) (path : String) : Except FileFault FileTree :=
  t.makeOnward (t.start path) [] (Path.components path)

/-- The files and databases below a directory, by their path from there. -/
def below (t : FileTree) (place : Place) : List (String × Node) :=
  t.nodes.filterMap fun (p, node) =>
    match node with
    | .directory => none
    | _ =>
      if place.isPrefixOf p && place.length < p.length then
        some (String.intercalate "/" (p.drop place.length), node)
      else none

end FileTree
end Firmware
