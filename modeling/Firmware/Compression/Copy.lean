import Firmware.Bytes

/-!
# Copies

Compressed data says a part of its contents as a copy of what came before. A copy that is longer
than its distance repeats itself.
-/

namespace Firmware
namespace Compression

/-- Copies bytes from behind; a copy may reach into itself. -/
def copyBack (out : Array UInt8) (distance length : Nat) : Array UInt8 :=
  length.fold (fun _ _ out => out.push ((out[out.size - distance]?).getD 0)) out

end Compression
end Firmware
