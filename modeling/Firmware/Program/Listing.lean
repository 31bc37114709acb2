import Firmware.Program.Basic
import Firmware.Text.Delimited

/-!
# Files that accompany an image

The header of the assembly listing, the board configuration for a boot loader, and the report of
procedure sizes.
-/

namespace Firmware
namespace Listing

/-- The share of `part` in `whole` in percent, rounded to the nearest whole number, a half up. -/
def percent (part whole : Nat) : Nat :=
  if whole == 0 then 0 else (200 * part + whole) / (2 * whole)

/-- The lines in front of the listing. -/
def header (p : Program) (s : TableStats) : String :=
  "; Interface tables: " ++ Numeral.decimal s.fullEntries ++ "/" ++ Numeral.decimal s.entries ++
    " (" ++ Numeral.decimal (percent s.fullEntries s.entries) ++ "%)\n; Virtual methods: " ++
    Numeral.decimal p.virtualMethodCount ++ " / " ++ Numeral.decimal p.methodCount ++ "\n"

/-- The name of the entry without which no configuration is written for the boot loader. -/
def boardEntry : String := "BOOTLOADER_BOARD_ID"

def bootloaderConfig (config : List ConfigEntry) : Option String :=
  if config.any (·.name == boardEntry) then
    some ("const uint32_t configData[] = \x7b\n    0x1e9e10f1, 0x20227a79, // magic\n    " ++
      Numeral.decimal config.length ++ ", 0, // num. entries; reserved\n" ++
      String.join (config.map fun e =>
        "    " ++ Numeral.decimal e.key ++ ", 0x" ++ Numeral.signedHex e.value ++ ", // " ++
          e.name ++ "\n") ++
      "    0, 0\n\x7d;\n")
  else none

/-! ## Sizes -/

/-- A procedure and the offset of its entry. -/
structure Span where
  code : ProcedureCode
  start : UInt32

/-- The procedures that have a label, in the order of their offsets. -/
def spans (procedures : List ProcedureCode) (labels : List (String × UInt32)) : List Span :=
  (procedures.filterMap fun c => (labels.lookup c.label).map (Span.mk c)).mergeSort
    fun a b => a.start ≤ b.start

/-- The rows of the report: each procedure ends where the next one starts, the last at `stop`. -/
def sizeRows (stop : UInt32) : List Span → List String
  | [] => []
  | s :: rest =>
    let next := match rest with
      | n :: _ => n.start
      | [] => stop
    let size : Int := (next.toNat : Int) - s.start.toNat
    Delimited.row [s.code.name, Numeral.decimal size, s.code.location] :: sizeRows stop rest

def sizeReport (procedures : List ProcedureCode) (labels : List (String × UInt32)) (words : Nat) :
    String :=
  let stop := (labels.lookup "_code_end").getD (words * 2).toUInt32
  String.join (Delimited.row ["name", "size", "location"] ::
    sizeRows stop (spans procedures labels))

end Listing
end Firmware
