import Firmware.Failure

/-!
# Chips

The memory maps of the chips that boot images are made for. A region holds the addresses from its
first to its last, both included; regions may overlap.
-/

namespace Firmware
namespace BootImage

structure Region where
  first : UInt32
  last : UInt32
  name : String
deriving DecidableEq, Repr

structure Chip where
  name : String
  id : UInt16
  regions : List Region
deriving DecidableEq, Repr

def chips : List Chip :=
  [⟨"esp32", 0,
    [⟨0x00000000, 0x00010000, "PADDING"⟩,
     ⟨0x3F400000, 0x3F800000, "DROM"⟩,
     ⟨0x3F800000, 0x3FC00000, "EXTRAM_DATA"⟩,
     ⟨0x3FF80000, 0x3FF82000, "RTC_DRAM"⟩,
     ⟨0x3FF90000, 0x40000000, "BYTE_ACCESSIBLE"⟩,
     ⟨0x3FFAE000, 0x40000000, "DRAM"⟩,
     ⟨0x3FFE0000, 0x3FFFFFFC, "DIRAM_DRAM"⟩,
     ⟨0x40000000, 0x40070000, "IROM"⟩,
     ⟨0x40070000, 0x40078000, "CACHE_PRO"⟩,
     ⟨0x40078000, 0x40080000, "CACHE_APP"⟩,
     ⟨0x40080000, 0x400A0000, "IRAM"⟩,
     ⟨0x400A0000, 0x400BFFFC, "DIRAM_IRAM"⟩,
     ⟨0x400C0000, 0x400C2000, "RTC_IRAM"⟩,
     ⟨0x400D0000, 0x40400000, "IROM"⟩,
     ⟨0x50000000, 0x50002000, "RTC_DATA"⟩]⟩,
   ⟨"esp32-s2", 2,
    [⟨0x00000000, 0x00010000, "PADDING"⟩,
     ⟨0x3F000000, 0x3FF80000, "DROM"⟩,
     ⟨0x3F500000, 0x3FF80000, "EXTRAM_DATA"⟩,
     ⟨0x3FF9E000, 0x3FFA0000, "RTC_DRAM"⟩,
     ⟨0x3FF9E000, 0x40000000, "BYTE_ACCESSIBLE"⟩,
     ⟨0x3FF9E000, 0x40072000, "MEM_INTERNAL"⟩,
     ⟨0x3FFB0000, 0x40000000, "DRAM"⟩,
     ⟨0x40000000, 0x4001A100, "IROM_MASK"⟩,
     ⟨0x40020000, 0x40070000, "IRAM"⟩,
     ⟨0x40070000, 0x40072000, "RTC_IRAM"⟩,
     ⟨0x40080000, 0x40800000, "IROM"⟩,
     ⟨0x50000000, 0x50002000, "RTC_DATA"⟩]⟩,
   ⟨"esp32-s3", 4,
    [⟨0x00000000, 0x00010000, "PADDING"⟩,
     ⟨0x3C000000, 0x3D000000, "DROM"⟩,
     ⟨0x3D000000, 0x3E000000, "EXTRAM_DATA"⟩,
     ⟨0x600FE000, 0x60100000, "RTC_DRAM"⟩,
     ⟨0x3FC88000, 0x3FD00000, "BYTE_ACCESSIBLE"⟩,
     ⟨0x3FC88000, 0x403E2000, "MEM_INTERNAL"⟩,
     ⟨0x3FC88000, 0x3FD00000, "DRAM"⟩,
     ⟨0x40000000, 0x4001A100, "IROM_MASK"⟩,
     ⟨0x40370000, 0x403E0000, "IRAM"⟩,
     ⟨0x600FE000, 0x60100000, "RTC_IRAM"⟩,
     ⟨0x42000000, 0x42800000, "IROM"⟩,
     ⟨0x50000000, 0x50002000, "RTC_DATA"⟩]⟩,
   ⟨"esp32-c3", 5,
    [⟨0x00000000, 0x00010000, "PADDING"⟩,
     ⟨0x3C000000, 0x3C800000, "DROM"⟩,
     ⟨0x3FC80000, 0x3FCE0000, "DRAM"⟩,
     ⟨0x3FC88000, 0x3FD00000, "BYTE_ACCESSIBLE"⟩,
     ⟨0x3FF00000, 0x3FF20000, "DROM_MASK"⟩,
     ⟨0x40000000, 0x40060000, "IROM_MASK"⟩,
     ⟨0x42000000, 0x42800000, "IROM"⟩,
     ⟨0x4037C000, 0x403E0000, "IRAM"⟩,
     ⟨0x50000000, 0x50002000, "RTC_IRAM"⟩,
     ⟨0x50000000, 0x50002000, "RTC_DRAM"⟩,
     ⟨0x600FE000, 0x60100000, "MEM_INTERNAL2"⟩]⟩]

namespace Chip

/-- Whether an address lies in a region of the given name. -/
def isIn (c : Chip) (region : String) (address : UInt32) : Bool :=
  c.regions.any fun r => r.name == region && r.first ≤ address && address ≤ r.last

/-- Whether the address is only used to fill space between segments. -/
def isPadding (c : Chip) (address : UInt32) : Bool := c.isIn "PADDING" address

def isReadOnlyData (c : Chip) (address : UInt32) : Bool := c.isIn "DROM" address

/-- Whether the address is mapped through the flash cache. -/
def isMapped (c : Chip) (address : UInt32) : Bool :=
  c.isIn "DROM" address || c.isIn "IROM" address

def find? (id : UInt16) : Option Chip := chips.find? (·.id == id)

end Chip
end BootImage
end Firmware
