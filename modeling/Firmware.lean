import Firmware.Main
import Firmware.Proofs.Procedure.Effects
import Firmware.Proofs.Procedure.WellFormed
import Firmware.Template.ExternalFunction
import Firmware.Proofs.Image.RecordImage
import Firmware.Proofs.Image.Overlap
import Firmware.Proofs.Image.SameFlash
import Firmware.Proofs.Dispatch.Following
import Firmware.Proofs.Build.Variants
import Firmware.Proofs.Image.PackedSource
import Firmware.Proofs.ObjectHeader.SameHeaders
import Firmware.Proofs.ObjectHeader.VtableField
import Firmware.Proofs.Procedure.NextBreakpoints
import Firmware.Proofs.Build.SizeSlots
import Firmware.Proofs.Uf2.ParsedLines
import Firmware.Proofs.Uf2.FileBlocks
import Firmware.Proofs.Uf2.Flattening
import Firmware.Proofs.Uf2.Joining
import Firmware.Proofs.Dispatch.Search
import Firmware.Proofs.IntelHex.Splice
import Firmware.Proofs.Template.JumpTable
import Firmware.Proofs.Template.Entries
import Firmware.Proofs.Procedure.Peephole
import Firmware.Proofs.Dispatch.Capacity
import Firmware.Proofs.Procedure.CellNames
