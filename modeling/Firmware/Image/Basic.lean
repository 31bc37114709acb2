import Firmware.Text.Utf8

/-!
# Images

What linking produces: record lines, or the bytes of any other container.
-/

namespace Firmware

inductive Image where
  | records (lines : List String)
  | binary (data : Bytes)
deriving DecidableEq, Repr

namespace Image

def isText : Image → Bool
  | .records _ => true
  | .binary _ => false

/-- The contents of the file. Record lines end with carriage return and line feed. -/
def bytes : Image → Bytes
  | .records lines => Utf8.encode (String.intercalate "\r\n" lines ++ "\r\n")
  | .binary data => data

end Image
end Firmware
