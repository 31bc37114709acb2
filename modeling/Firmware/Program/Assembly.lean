import Firmware.Program.Basic

/-!
# Assembly of a program

The source that an assembler gets: the header that the runtime reads, the code, the dispatch
tables, the names of interface members, the configuration, literals and performance counters.
-/

namespace Firmware
namespace Program

/-- The digits that open every program; the runtime checks them. -/
def magicDigits : String := "708E3B92C615A841C49866C975EE5197"

/-- The performance counters of the runtime itself. -/
def systemCounters : List String := ["GC"]

def headerText (p : Program) (t : Template) : String :=
  "; start\n" ++ t.startDirective ++
  "    .hex " ++ magicDigits ++ " ; magic number\n" ++
  "    .hex " ++ t.hashText ++ " ; hex template hash\n" ++
  "    .hex 0000000000000000 ; @SRCHASH@\n" ++
  "    .short " ++ Numeral.decimal p.globalsWords ++ "   ; num. globals\n" ++
  "    .short 0 ; patched with number of 64 bit words resulting from assembly\n" ++
  "    .word _pxt_config_data\n" ++
  "    .short 0 ; patched with comm section size\n" ++
  "    .short " ++ Numeral.decimal p.nonPointerGlobals ++
    " ; number of globals that are not pointers (they come first)\n" ++
  "    .word _pxt_iface_member_names\n" ++
  "    .word _pxt_lambda_trampoline@fn\n" ++
  "    .word _pxt_perf_counters\n" ++
  "    .word 0 ; reserved\n" ++
  "    .word 0 ; reserved\n"

/-- The code: procedures, helpers and inline assembly, then helper bodies in the order of their
labels. -/
def codeText (p : Program) : String :=
  let helpers := p.codeHelpers.mergeSort fun a b => a.1 ≤ b.1
  String.join (p.procedures.map fun c => "\n" ++ c.assembly ++ "\n") ++
  "\n" ++ p.helpers ++ "\n" ++ p.userAssembly ++ "_code_end:\n\n" ++
  String.join (helpers.map fun (label, body) =>
    "    .section code\n" ++ label ++ ":\n" ++ body ++ "\n") ++
  p.arithmetic ++ "_helpers_end:\n\n"

/-- What the layout of the dispatch tables depends on. -/
def tableOptions (t : Target) : TableOptions := ⟨t.shortPointers, t.gc, t.vtableShift⟩

/-- The dispatch tables. The counts are those of the classes before the first that fails. -/
def classesText (o : TableOptions) : List ClassInfo → Except Failure String × TableStats
  | [] => (.ok "", {})
  | c :: rest =>
    match c.render o with
    | .error f => (.error f, {})
    | .ok (text, stats) =>
      let (texts, more) := classesText o rest
      (texts.map (text ++ ·), stats.add more)

/-- The names of the interface members; each needs a literal. -/
def membersText (p : Program) : Except Failure String := do
  let entries ← p.interfaceMembers.zipIdx.mapM fun (name, i) =>
    match p.memberLabels.lookup name with
    | some label =>
      pure ("    .word " ++ label ++ "meta  ; " ++ Numeral.decimal i ++ " ." ++ name ++ "\n")
    | none => throw (.noMemberLiteral name)
  return "\n.balign 4\n_pxt_iface_member_names:\n" ++
    "    .word " ++ Numeral.decimal p.interfaceMembers.length ++ "\n" ++ String.join entries ++
    "    .word 0\n_vtables_end:\n\n"

def configText (p : Program) : String :=
  "\n.balign 4\n_pxt_config_data:\n" ++
  String.join (p.config.map fun e =>
    "    .word " ++ Numeral.decimal e.key ++ ", " ++ Numeral.decimal e.value ++ "  ; " ++ e.name ++
      "=" ++ Numeral.decimal e.value ++ "\n") ++
  "    .word 0\n\n"

def countersText (p : Program) : String :=
  let counters := systemCounters ++ p.perfCounters
  let label (i : Nat) : String := ".perf" ++ Numeral.decimal i
  "\n.balign 4\n.section code\n_pxt_perf_counters:\n" ++
  "    .word " ++ Numeral.decimal counters.length ++ "\n" ++
  String.join (counters.mapIdx fun i _ => "    .word " ++ label i ++ "\n") ++
  String.join (counters.mapIdx fun i c => label i ++ ": .string " ++ Text.quote c ++ "\n") ++
  "_literals_end:\n"

/-- The assembly of a program for a template, and the counts of its interface tables. -/
def assembly (p : Program) (t : Template) : Except Failure String × TableStats :=
  let (tables, stats) := classesText (tableOptions t.target) p.classes
  let text := do
    let tables ← tables
    let members ← p.membersText
    return p.headerText t ++ p.codeText ++ tables ++ members ++ p.configText ++
      String.join p.literals ++ p.countersText
  (text, stats)

end Program
end Firmware
