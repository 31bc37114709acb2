/-!
# White space

The characters with the Unicode property `White_Space`, and trimming by them.
-/

namespace Firmware
namespace Text

/-- Whether `c` is white space: tab to carriage return, space, next line, the no-break space, and
the spaces and separators of the other blocks. -/
def isBlank (c : Char) : Bool :=
  let n := c.toNat
  (0x09 ≤ n && n ≤ 0x0D) || n == 0x20 || n == 0x85 || n == 0xA0 || n == 0x1680 ||
    (0x2000 ≤ n && n ≤ 0x200A) || n == 0x2028 || n == 0x2029 || n == 0x202F ||
    n == 0x205F || n == 0x3000

def trimChars (cs : List Char) : List Char :=
  ((cs.dropWhile isBlank).reverse.dropWhile isBlank).reverse

def trim (s : String) : String := String.ofList (trimChars s.toList)

/-- Whether `c` can be part of an identifier: a letter, a digit or the underscore, of ASCII only. -/
def isWord (c : Char) : Bool := c.isAlphanum || c == '_'

/-- The identifier made of `s` by writing an underscore for every other character. -/
def identifier (s : String) : String :=
  String.ofList (s.toList.map fun c => if isWord c then c else '_')

def isSeparator (c : Char) : Bool :=
  c == '\t' || c == '\n' || c == '\x0c' || c == '\r' || c == ' '

end Text
end Firmware
