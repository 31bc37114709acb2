import Firmware.Dispatch.MemberHash

/-!
# Dispatch tables of classes

A class has a table of virtual methods and an interface table. The interface table starts with the
slots of the member hash; each slot holds the distance from its own position to a descriptor, and a
free slot the distance to the first of what follows. Descriptors follow in the order of the members,
a setter directly behind its getter, and then a terminator.
-/

namespace Firmware

structure InterfaceMember where
  id : Int
  name : String
  /-- The kind tag, which stands in for the procedure when there is none. -/
  info : Int
  procedure : String
  setter : String
deriving DecidableEq, Repr

structure ClassInfo where
  id : String
  classNo : Int
  fieldCount : Int
  /-- Empty when the class has none. -/
  toStringLabel : String
  /-- The entries of the methods in slot order. -/
  methods : List String
  members : List InterfaceMember
deriving DecidableEq, Repr

/-- What the layout of tables depends on. -/
structure TableOptions where
  shortPointers : Bool
  gc : Bool
  vtableShift : Nat
deriving DecidableEq, Repr

/-- Slots of interface tables, and how many of them are taken. -/
structure TableStats where
  entries : Nat := 0
  fullEntries : Nat := 0
deriving DecidableEq, Repr

/-- The sum of two counts. -/
def TableStats.add (a b : TableStats) : TableStats :=
  ⟨a.entries + b.entries, a.fullEntries + b.fullEntries⟩

/-- The word of the first virtual method: behind the header, the memory management slots and the
string conversion. -/
def firstMethodOffset (gc : Bool) : Nat := if gc then 4 + 4 + 1 else 4 + 2 + 1

/-- An entry of the descriptor area. -/
structure Descriptor where
  id : Int
  info : Int
  /-- The procedure, or the number that stands in for it. -/
  target : String
  comment : String
deriving DecidableEq, Repr

structure InterfaceTable where
  hash : MemberHash
  /-- One distance for each slot of the hash. -/
  buckets : List Int
  descriptors : List Descriptor
deriving DecidableEq, Repr

namespace InterfaceTable

/-- The bytes that a descriptor takes. -/
def descriptorSize : Nat := 8

def functionPointer (label : String) : String := label ++ "@fn"

def memberDescriptors (m : InterfaceMember) : List Descriptor :=
  let target := if m.procedure.isEmpty then Numeral.decimal m.info else functionPointer m.procedure
  let getter : Descriptor := ⟨m.id, m.info, target, m.name⟩
  if m.setter.isEmpty then [getter]
  else [getter, ⟨m.id, 0, functionPointer m.setter, "set " ++ m.name⟩]

/-- The offset of each member's first descriptor, where the first member's is at `offset`. -/
def offsetsFrom (offset : Nat) : List InterfaceMember → List (Int × Nat)
  | [] => []
  | m :: rest =>
    (m.id, offset) ::
      offsetsFrom (offset + descriptorSize * (memberDescriptors m).length) rest

/-- The distance stored in slot `i`, which holds `id`: zero leads to the end of the slots. -/
def distance (endOffset : Nat) (offsets : List (Int × Nat)) (i : Nat) (id : UInt16) : Int :=
  let offset :=
    if id == 0 then endOffset
    else ((offsets.reverse.find? fun o => o.1 == (id.toNat : Int)).map (·.2)).getD 0
  (offset : Int) - (i * 2 : Nat)

def build (members : List InterfaceMember) (hash : MemberHash) : InterfaceTable :=
  let start := hash.slots.size * 2
  let offsets := offsetsFrom start members
  { hash
    buckets := hash.slots.toList.mapIdx (distance start offsets)
    descriptors := members.flatMap memberDescriptors }

def stats (t : InterfaceTable) : TableStats :=
  ⟨t.hash.slots.size, (t.hash.slots.toList.filter (· != 0)).length⟩

def renderDescriptor (d : Descriptor) : String :=
  "  .short " ++ Numeral.decimal d.id ++ ", " ++ Numeral.decimal d.info ++ " ; " ++ d.comment ++
    "\n  .word " ++ d.target ++ "\n"

def render (t : InterfaceTable) : String :=
  "  .short " ++ String.intercalate ", " (t.buckets.map Numeral.decimal) ++ "\n" ++
    String.join (t.descriptors.map renderDescriptor) ++ "  .word 0, 0 ; the end\n"

end InterfaceTable

namespace ClassInfo

def objectTag : Nat := 4

/-- The byte that marks a table. -/
def tableMagic : Nat := 0xF9

/-- The alignment that a shift of table addresses needs, as a signed 64-bit number. -/
def alignment (shift : Nat) : Int :=
  if shift < 63 then (1 <<< shift : Nat) else if shift == 63 then -0x8000000000000000 else 0

def interfaceTable (c : ClassInfo) : Except Failure InterfaceTable :=
  match MemberHash.compute (c.members.map (·.id)) with
  | .ok hash => .ok (.build c.members hash)
  | .error f => .error (.inClass c.id f)

/-- The pointers of the method table: memory management, string conversion, methods. -/
def methodPointers (c : ClassInfo) (gc : Bool) : List String :=
  ["pxt::RefRecord_destroy", "pxt::RefRecord_print"] ++
    (if gc then ["pxt::RefRecord_scan", "pxt::RefRecord_gcsize"] else []) ++
    [if c.toStringLabel.isEmpty then "0" else c.toStringLabel] ++
    c.methods.map (· ++ "_nochk")

/-- The tables of a class as assembly, with the counts of its interface table. -/
def render (c : ClassInfo) (o : TableOptions) : Except Failure (String × TableStats) := do
  let table ← c.interfaceTable
  let pointer := if o.shortPointers then ".short" else ".word"
  let entry (name : String) : String :=
    "        " ++ pointer ++ " " ++
      (if name == "0" then name else InterfaceTable.functionPointer name) ++ "\n"
  let text :=
    "\n        .balign " ++ Numeral.decimal (alignment o.vtableShift) ++ "\n" ++
    c.id ++ "_VT:\n" ++
    "        .short " ++ Numeral.decimal (wrap64 (c.fieldCount * 4 + 4)) ++ "  ; size in bytes\n" ++
    "        .byte " ++ Numeral.decimal objectTag ++ ", " ++ Numeral.decimal tableMagic ++
      " ; magic\n" ++
    "        " ++ pointer ++ " " ++ c.id ++ "_IfaceVT\n" ++
    "        .short " ++ Numeral.decimal c.classNo ++ " ; class-id\n" ++
    "        .short 0 ; reserved\n" ++
    "        .word " ++ Numeral.decimal table.hash.multiplier.toInt32.toInt ++ " ; hash-mult\n" ++
    String.join ((c.methodPointers o.gc).map entry) ++
    "\n        .balign " ++ (if o.shortPointers then "2" else "4") ++ "\n" ++
    c.id ++ "_IfaceVT:\n" ++ table.render ++ "\n"
  return (text, table.stats)

end ClassInfo
end Firmware
