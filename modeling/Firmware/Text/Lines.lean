/-!
# Lines of a text

A text is cut at every line end; what follows the last one is a line too, possibly empty.
-/

namespace Firmware
namespace Text

def lines (cs : List Char) : List (List Char) :=
  cs.foldr (fun c acc =>
    if c == '\n' then [] :: acc
    else
      match acc with
      | line :: rest => (c :: line) :: rest
      | [] => [[c]]) [[]]

def joinLines (ls : List (List Char)) : List Char := List.intercalate ['\n'] ls

end Text
end Firmware
