import Firmware.Report
import Firmware.Statement.Fault
import Firmware.Text.Hexadecimal
import Firmware.Text.Query

/-!
# Failures

Every way in which reading a template, resolving a procedure, linking a program or running a
command can fail. A failure is a cause with the values it speaks about; `Failure.report` gives the
class and the wording of each of them, in one place.

`outOfRange` stands apart: it is the outcome of an access outside a buffer, which no message
describes and after which a run does not go on.
-/

namespace Firmware

/-- Why the file system refuses a path. -/
inductive PathFault where
  | missing
  | notDirectory
  | isDirectory
  | nameTooLong
  /-- The path holds a zero. -/
  | invalid
deriving DecidableEq, Repr

def PathFault.message : PathFault → String
  | .missing => "no such file or directory"
  | .notDirectory => "not a directory"
  | .isDirectory => "is a directory"
  | .nameTooLong => "file name too long"
  | .invalid => "invalid argument"

structure FileFault where
  operation : String
  path : String
  fault : PathFault
deriving DecidableEq, Repr

def FileFault.message (f : FileFault) : String :=
  f.operation ++ " " ++ f.path ++ ": " ++ f.fault.message

/-- Why a database refuses an operation. -/
inductive DatabaseFault where
  | badQuery (fault : Query.Fault)
  /-- Options ask for different file systems. -/
  | conflictingSystems (names : List Bytes)
  | unknownOption (name : String) (value : Bytes)
  /-- An address that no database can have. -/
  | refusedAddress
  /-- An option asks for more access than one in front of it. -/
  | refusedMode
  | cannotOpen
  /-- The file that a new one takes its permissions from cannot be looked at. -/
  | noModel
  | noJournal
  | notDatabase
  | readOnly
  /-- There is no room for another page. -/
  | full
  /-- The pages of the file do not fit together. -/
  | malformed
  /-- What the file says about one of its tables cannot be used. -/
  | malformedSchema (object : Bytes) (detail : Option Statement.SchemaFault)
  | statement (fault : Statement.Fault)
deriving DecidableEq, Repr

/-- The wording of a refused operation on a database. Before a database is open, all that it says
itself is that it has no memory. -/
def DatabaseFault.message : DatabaseFault → String
  | .badQuery fault => fault.message
  | .conflictingSystems names =>
    "conflicting vfs query parameters: [" ++ String.intercalate " " (names.map Utf8.display) ++ "]"
  | .unknownOption name value => "unknown " ++ name ++ " " ++ Text.quoteBytes value
  | .refusedAddress => "SQL logic error: out of memory (1)"
  | .refusedMode => "access permission denied: out of memory (3)"
  | .cannotOpen => "unable to open database file: out of memory (14)"
  | .noJournal => "unable to open database file (14)"
  | .notDatabase => "file is not a database (26)"
  | .readOnly => "attempt to write a readonly database (8)"
  | .noModel => "disk I/O error: out of memory (10)"
  | .full => "database or disk is full (13)"
  | .malformed => "database disk image is malformed (11)"
  | .malformedSchema object detail =>
    "database disk image is malformed: malformed database schema (" ++ Utf8.display object ++ ")" ++
      ((detail.map fun d => " - " ++ d.message).getD "") ++ " (11)"
  | .statement fault => "SQL logic error: " ++ fault.message ++ " (1)"

inductive Failure where
  /-- An access outside a buffer. -/
  | outOfRange
  /-- A failure reported by a part outside of this library, such as an assembler. -/
  | reported (report : Report)
  -- Record lines
  | badBytes (digits : String) (fault : Hexadecimal.Fault)
  | malformedRecord (line : String)
  | badRecordChecksum (line : String)
  | patchPastEnd
  -- Block files
  | badFamily (text : String) (fault : Numeral.Fault)
  | badLineAddress (index : Nat) (text : String) (fault : Numeral.Fault)
  | badLineData (index : Nat) (fault : Hexadecimal.Fault)
  -- Executable images
  | unreadableExecutable
  | wideExecutable
  | noSpareHeader
  -- Boot images
  | bootImageTooShort (length : Nat)
  | badBootMagic (byte : UInt8)
  | unknownChip (id : UInt16)
  | truncatedSegments
  | badBase64 (position : Nat)
  | segmentOffset (offset : Nat) (address : UInt32)
  | unalignedOffset (offset : Nat)
  -- Templates
  | emptyTemplate
  | noPointerValue (function : String) (digits : Bytes)
  | notThumbPointer (function : String) (digits : Bytes)
  | badPointer (digits numeral : Bytes) (fault : Numeral.Fault)
  | missingFunctions (names : List String)
  | badBlob (fault : Hexadecimal.Fault)
  | noJumpTable
  | noReadOnlySegment
  | noFunctionTable
  | badSegmentRecord (line : String)
  | unalignedSegmentRecord (line : String)
  | unevenPadding (size : UInt32)
  | noHexStart
  | noHexEnd
  | vtableNotEncodable (address : UInt32) (shift : Nat)
  -- External functions
  | externalNotFound (function : String)
  | externalIsFunction (function : String)
  | externalIsProcedure (function : String)
  | tooManyArguments (function : String)
  | tooFewArguments (function : String) (given : Int) (formats : List String)
  -- Procedures
  | clearingNonLocal (cell : String)
  | resolvedTwice (procedure : String)
  | missingLabel (label : String)
  | definedBeforeResolve (operand : Nat)
  | staleDefinition (operand : Nat) (totalUses currentUses : Int)
  | notDominated (operand : Nat)
  | useWithoutCount (operand : Nat) (totalUses : Int)
  | singleUseIsReference (operand : Nat)
  | definedTwice (operand : Nat)
  | usedBeforeDefinition (operand : Nat)
  | useCountMismatch (operand : Nat) (totalUses : Int) (references : Nat)
  -- Dispatch tables
  | memberIdOutOfRange (id : Int)
  | memberIdRepeated (id : Int)
  | noMemberHash (count limit : Nat)
  | inClass (name : String) (cause : Failure)
  -- Programs
  | noMemberLiteral (member : String)
  | sourceHashMissing
  | badSourceHash (digits : Bytes) (fault : Numeral.Fault)
  | noChecksumBlock
  | badTemplateHash (hash : String) (numeral : Bytes) (fault : Numeral.Fault)
  | programTooLarge (bytes : Nat)
  | noCodeStart
  | jumpTableOutside
  | bootImageWithoutTable
  | codeStartInsideData (address : UInt32)
  | noStringMarker
  | missingVtable (name : String)
  | unalignedVtable (address : UInt32)
  | constantTooLong
  -- Builds
  | assembling (cause : Failure)
  | creatingOutputDirectory (fault : FileFault)
  | writingOutput (path : String) (fault : FileFault)
  | diskFull
  -- Stores
  | storingWithoutKey
  | unreadableEntry
  | creatingStoreDirectory (fault : FileFault)
  | noCacheDirectory
  | relativeCacheDirectory
  | storeUnavailable (text : String)
  | connectingStore (fault : DatabaseFault)
  | creatingTable (fault : DatabaseFault)
  | deletingEntry (sha : String) (fault : DatabaseFault)
  | listingEntries (fault : DatabaseFault)
  | missingHash
  | queryingEntry (fault : DatabaseFault)
  -- Commands
  | cacheNeedsSubcommand
  | cacheListTakesNoArguments
  | unknownCacheSubcommand (name : String)
  | inVariant (name : String) (cause : Failure)
  | checksumOfMachineCode
  | readingProgram (fault : FileFault)
  | noSuchVariant (name : String)
  | variantsFailed (failed total : Nat)
deriving Repr

namespace Failure

/-- How a numeral that cannot be read is reported. -/
def numeralNote (text : Bytes) (fault : Numeral.Fault) : Report := .note (fault.describe text)

def digitsNote (fault : Hexadecimal.Fault) : Report := .note fault.message

def operandName (n : Nat) : String := "shared #" ++ Numeral.decimal n

/-- The class and the wording of a failure. -/
def report : Failure → Report
  | .outOfRange => .note "index out of range"
  | .reported r => r
  | .badBytes digits fault => .fatalFrom ("bad bytes " ++ digits) (digitsNote fault)
  | .malformedRecord line => .note ("malformed record " ++ Text.quote line)
  | .badRecordChecksum line => .note ("bad checksum in record " ++ Text.quote line)
  | .patchPastEnd => .fatal "hex patch runs past end of file"
  | .badFamily text fault =>
    .within ("invalid UF2 family " ++ Text.quote text) (numeralNote (Utf8.encode text) fault)
  | .badLineAddress index text fault =>
    .within ("hex line " ++ Numeral.decimal index ++ ": bad address")
      (numeralNote (Utf8.encode text) fault)
  | .badLineData index fault =>
    .within ("hex line " ++ Numeral.decimal index) (digitsNote fault)
  | .unreadableExecutable => .note "cannot parse ELF template"
  | .wideExecutable =>
    .note "cannot use ELFCLASS64 ELF template: only 32-bit images are supported"
  | .noSpareHeader => .fatal "ELF template has no spare program header"
  | .bootImageTooShort length =>
    .note ("ESP: image too short (" ++ Numeral.decimal length ++ " bytes)")
  | .badBootMagic byte => .note ("ESP: invalid magic: " ++ Numeral.decimal byte.toNat)
  | .unknownChip id => .note ("ESP: unknown chipid: " ++ Numeral.decimal id.toNat)
  | .truncatedSegments => .note "ESP: too short file"
  | .badBase64 position =>
    .within "ESP" (.note ("illegal base64 data at input byte " ++ Numeral.decimal position))
  | .segmentOffset offset address =>
    .fatal ("ESP padding: offset " ++ Numeral.decimal offset ++ "+8 does not match address 0x" ++
      Numeral.hex address.toNat)
  | .unalignedOffset offset =>
    .fatal ("ESP padding: unaligned file offset " ++ Numeral.decimal offset)
  | .emptyTemplate => .fatal "empty template"
  | .noPointerValue function digits =>
    .fatal ("No value for " ++ function ++ " / " ++ Utf8.display digits)
  | .notThumbPointer function digits =>
    .fatal ("Non-thumb addr for " ++ function ++ " / " ++ Utf8.display digits)
  | .badPointer digits numeral fault =>
    .fatalFrom ("bad pointer " ++ Utf8.display digits) (numeralNote numeral fault)
  | .missingFunctions names =>
    .fatal ("premature EOF in hex file; missing: " ++ String.intercalate ", " names)
  | .badBlob fault => .within "cannot decode binary template" (digitsNote fault)
  | .noJumpTable => .fatal "no jmp table in elf"
  | .noReadOnlySegment => .fatal "no DROM segment in ESP image"
  | .noFunctionTable => .fatal "no function table in ESP image"
  | .badSegmentRecord line => .fatal ("bad segment record " ++ line)
  | .unalignedSegmentRecord line => .fatal ("unaligned segment record " ++ line)
  | .unevenPadding size =>
    .fatal ("code padding " ++ Numeral.decimal size.toNat ++ " not a multiple of 16")
  | .noHexStart => .fatal "No hex start"
  | .noHexEnd => .fatal "No hex end"
  | .vtableNotEncodable address shift =>
    .fatal ("cannot encode vtable pointer 0x" ++ Numeral.hex address.toNat ++ " with shift " ++
      Numeral.decimal shift)
  | .externalNotFound function => .user ("function not found: " ++ function)
  | .externalIsFunction function => .user ("expecting procedure for " ++ function)
  | .externalIsProcedure function => .user ("expecting function for " ++ function)
  | .tooManyArguments function => .user ("excessive parameters passed to " ++ function)
  | .tooFewArguments function given formats =>
    .user ("not enough arguments for " ++ function ++ " (got " ++ Numeral.decimal given ++
      "; fmt=" ++ String.intercalate "," formats ++ ")")
  | .clearingNonLocal cell => .fatal ("clearing non-local cell " ++ cell)
  | .resolvedTwice procedure => .fatal ("procedure " ++ procedure ++ " resolved twice")
  | .missingLabel label => .fatal ("missing label: " ++ label)
  | .definedBeforeResolve operand =>
    .fatal ("shared definition #" ++ Numeral.decimal operand ++ " before resolve")
  | .staleDefinition operand totalUses currentUses =>
    .assertion (operandName operand ++ ": fresh definition (totalUses=" ++
      Numeral.decimal totalUses ++ " currUses=" ++ Numeral.decimal currentUses ++ ")")
  | .notDominated operand =>
    .fatal (operandName operand ++ ": reference not dominated by its definition")
  | .useWithoutCount operand totalUses =>
    .fatal (operandName operand ++ ": use with totalUses=" ++ Numeral.decimal totalUses)
  | .singleUseIsReference operand => .fatal (operandName operand ++ ": single use is a reference")
  | .definedTwice operand => .fatal (operandName operand ++ " defined twice")
  | .usedBeforeDefinition operand =>
    .fatal (operandName operand ++ " referenced before definition")
  | .useCountMismatch operand totalUses references =>
    .fatal (operandName operand ++ ": totalUses=" ++ Numeral.decimal totalUses ++ " but " ++
      Numeral.decimal references ++ " references")
  | .memberIdOutOfRange id =>
    .fatal ("interface member id " ++ Numeral.decimal id ++ " out of range")
  | .memberIdRepeated id => .fatal ("interface member id " ++ Numeral.decimal id ++ " not unique")
  | .noMemberHash count limit =>
    .fatal ("no interface hash for " ++ Numeral.decimal count ++ " ids within table size " ++
      Numeral.decimal limit)
  | .inClass name cause => .within ("vtable of " ++ name) cause.report
  | .noMemberLiteral member => .fatal ("no string literal for interface member " ++ member)
  | .sourceHashMissing => .fatal "checksum block needs the source hash"
  | .badSourceHash digits fault => .fatalFrom "bad source hash" (numeralNote digits fault)
  | .noChecksumBlock => .fatal "checksum block not found at the end of the program"
  | .badTemplateHash hash numeral fault =>
    .fatalFrom ("bad template hash " ++ hash) (numeralNote numeral fault)
  | .programTooLarge bytes => .user ("program too large, bytes: " ++ Numeral.decimal bytes)
  | .noCodeStart => .fatal "template has no code start"
  | .jumpTableOutside => .fatal "jump table outside of ELF image"
  | .bootImageWithoutTable => .fatal "ESP image has no function table"
  | .codeStartInsideData address =>
    .fatal ("ESP code start 0x" ++ Numeral.hex address.toNat ++ " inside DROM")
  | .noStringMarker => .fatal "no string marker"
  | .missingVtable name => .fatal ("missing vt: " ++ name)
  | .unalignedVtable address => .fatal ("Unaligned vt: " ++ Numeral.decimal address.toNat)
  | .constantTooLong => .fatal "constant string too long!"
  | .assembling cause => .within "cannot assemble program" cause.report
  | .creatingOutputDirectory fault =>
    .within "cannot create output directory" (.note fault.message)
  | .writingOutput path fault => .within ("cannot write " ++ path) (.note fault.message)
  | .diskFull => .note "disk full"
  | .storingWithoutKey => .note "templatestore: context has no SHA"
  | .unreadableEntry => .within "templatestore: unmarshal context" (.note "EOF")
  | .creatingStoreDirectory fault => .within "creating cache directory" (.note fault.message)
  | .noCacheDirectory =>
    .within "getting cache dir" (.note "neither $XDG_CACHE_HOME nor $HOME are defined")
  | .relativeCacheDirectory =>
    .within "getting cache dir" (.note "path in $XDG_CACHE_HOME is relative")
  | .storeUnavailable text => .note text
  | .connectingStore fault => .within "setting busy timeout" (.note fault.message)
  | .creatingTable fault => .within "creating table" (.note fault.message)
  | .listingEntries fault => .within "listing templates" (.note fault.message)
  | .missingHash =>
    .within "scanning template row"
      (.note ("sql: Scan error on column index 0, name \"sha\": " ++
        "converting NULL to string is unsupported"))
  | .queryingEntry fault => .within "querying template" (.note fault.message)
  | .deletingEntry sha fault =>
    .within ("cannot delete " ++ sha) (.within "deleting template" (.note fault.message))
  | .cacheNeedsSubcommand => .note "cache needs a subcommand: list or clear"
  | .cacheListTakesNoArguments => .note "cache list takes no arguments"
  | .unknownCacheSubcommand name => .note ("unknown cache subcommand " ++ Text.quote name)
  | .inVariant name cause => .within ("variant " ++ name) cause.report
  | .checksumOfMachineCode =>
    .user "a pre-assembled program cannot carry a checksum block; unset flash-checksum-addr"
  | .readingProgram fault => .within "cannot read program" (.note fault.message)
  | .noSuchVariant name => .note ("no variant named " ++ Text.quote name)
  | .variantsFailed failed total =>
    .note (Numeral.decimal failed ++ " of " ++ Numeral.decimal total ++ " variants failed")

def message (f : Failure) : String := f.report.message

/-- Whether the failure is an access outside a buffer, after which a run does not go on. -/
def isOutOfRange : Failure → Bool
  | .outOfRange => true
  | .inClass _ cause => cause.isOutOfRange
  | .assembling cause => cause.isOutOfRange
  | .inVariant _ cause => cause.isOutOfRange
  | _ => false

end Failure

def Diagnostic.ofFailure (variant : String) (f : Failure) : Diagnostic :=
  .ofReport variant f.report

end Firmware
