import Firmware.Failure

/-!
# Paths

A path is a text of components between slashes. Cleaning removes empty components and single dots,
and lets a double dot cancel the component in front of it; it only looks at the text.
-/

namespace Firmware
namespace Path

/-- Cuts a text at every slash. -/
def components (path : String) : List String :=
  (path.toList.foldr (fun c acc =>
    if c == '/' then [] :: acc
    else
      match acc with
      | part :: rest => (c :: part) :: rest
      | [] => [[c]]) [[]]).map String.ofList

def isAbsolute (path : String) : Bool := path.toList.head? == some '/'

/-- Adds a component to the reversed components of a clean path. -/
def push (rooted : Bool) (acc : List String) (part : String) : List String :=
  if part.isEmpty || part == "." then acc
  else if part == ".." then
    match acc with
    | [] => if rooted then [] else [".."]
    | last :: rest => if last == ".." then ".." :: acc else rest
  else part :: acc

/-- The shortest path that means the same as far as the text tells. -/
def clean (path : String) : String :=
  let rooted := isAbsolute path
  let parts := ((components path).foldl (push rooted) []).reverse
  let text := String.intercalate "/" parts
  if rooted then "/" ++ text else if text.isEmpty then "." else text

/-- The clean path of parts that follow each other; empty parts do not count. -/
def join (parts : List String) : String :=
  let parts := parts.filter (!·.isEmpty)
  if parts.isEmpty then "" else clean (String.intercalate "/" parts)

def parent (path : String) : String :=
  let parts := (components path).dropLast
  clean (String.intercalate "/" (parts ++ [""]))

def longestName : Nat := 255

/-- The longest path that a file system looks at, in bytes. -/
def longestPath : Nat := 4095

/-- What is wrong with a component as the name of a file, whatever is there. -/
def nameFault? (part : String) : Option PathFault :=
  if part.toList.contains (Char.ofNat 0) then some .invalid
  else if longestName < part.utf8ByteSize then some .nameTooLong
  else none

/-- What is wrong with a path as a whole. -/
def fault? (path : String) : Option PathFault :=
  if path.toList.contains (Char.ofNat 0) then some .invalid
  else if longestPath < path.utf8ByteSize then some .nameTooLong
  else none

/-- The last component, without slashes behind it. -/
def base (path : String) : String :=
  if path.isEmpty then "."
  else ((components path).filter (!·.isEmpty)).getLast?.getD "/"

/-- What follows the last dot of the last component, with the dot. -/
def suffix (path : String) : String :=
  let last := (((components path).getLast?).getD "").toList
  if last.contains '.' then
    String.ofList ('.' :: (last.reverse.takeWhile (· != '.')).reverse)
  else ""

/-- The last component without its suffix. -/
def stem (path : String) : String :=
  let name := (base path).toList
  let ending := (suffix path).toList
  if ending.isSuffixOf name then String.ofList (name.take (name.length - ending.length))
  else String.ofList name

end Path
end Firmware
