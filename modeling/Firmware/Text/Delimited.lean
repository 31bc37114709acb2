import Firmware.Text.Blank

/-!
# Comma separated rows

A field is quoted when a reader could take it for something else: it holds a comma, a quote or a
line end, starts with white space, or is exactly `\.`. A quote inside a quoted field is doubled.
-/

namespace Firmware
namespace Delimited

def needsQuotes (cs : List Char) : Bool :=
  match cs with
  | [] => false
  | c :: _ =>
    cs == ['\\', '.'] || cs.any (fun c => c == ',' || c == '"' || c == '\r' || c == '\n') ||
      Text.isBlank c

def field (s : String) : String :=
  if needsQuotes s.toList then
    String.ofList ('"' :: s.toList.flatMap (fun c => if c == '"' then ['"', '"'] else [c]) ++ ['"'])
  else s

def row (fields : List String) : String := String.intercalate "," (fields.map field) ++ "\n"

end Delimited
end Firmware
