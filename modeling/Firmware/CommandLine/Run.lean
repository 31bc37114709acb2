import Firmware.CommandLine.Command

/-!
# Running the command

A run reads the options, then does what the first operand names. It ends with an exit code: 0 when
all went well, 1 when the command failed, 2 when the arguments make no command.
-/

namespace Firmware
namespace CommandLine

structure Outcome where
  exitCode : Nat
  world : World
deriving DecidableEq, Repr

/-- The outcome of a command in a world. An access outside a buffer has no outcome. -/
def Outcome.of (command : Command Nat) (w : World) : Except Failure Outcome :=
  match command.run w with
  | (.ok code, w) => .ok ⟨code, w⟩
  | (.error f, w) =>
    if f.isOutOfRange then .error f
    else .ok ⟨1, { w with errors := w.errors ++ "Error: " ++ f.message ++ "\n" }⟩

def showUsage : Command Nat := do
  warn usage
  return 2

/-- Opens the store unless it is not wanted; one that cannot be opened is done without. -/
def attachStore (o : Options) (e : Environment) : Command Unit := do
  if o.withoutStore then return
  else
    try
      let s ← openStore e o.storePath
      modify fun w => { w with store := some s }
    catch f => warn ("Warning: template cache disabled: " ++ f.message ++ "\n")

def detachStore (w : World) : World :=
  match w.store with
  | some s => ((keep s).run w).2
  | none => w

def runConfigured (o : Options) (e : Environment) (c : Configuration) (name : String)
    (arguments : List String) : Command Nat := do
  attachStore o e
  match name, arguments with
  | "inspect", _ =>
    inspect c
    return 0
  | "patch", [path] =>
    link c path o.outputDirectory o.only
    return 0
  | "patch", _ => showUsage
  | _, _ =>
    warn ("Error: unknown command " ++ Text.quote name ++ "\n")
    return 2

def runOperands (o : Options) (e : Environment) (c : Option Configuration) :
    List String → Command Nat
  | [] => showUsage
  | name :: arguments =>
    if name == "cache" then do
      manageStore e o.storePath arguments
      return 0
    else
      match c with
      | none => do
        warn ("Error: no flashlink.toml found in " ++ o.projectDirectory ++ " or its parents\n")
        return 1
      | some c => runConfigured o e c name arguments

/-- Runs the command with its arguments. The configuration is the one that was found, if any. -/
def run (e : Environment) (c : Option Configuration) (files : FileTree)
    (arguments : List String) : Except Failure Outcome :=
  match Options.parse {} arguments with
  | .error f =>
    let line := (f.message?.map (· ++ "\n")).getD ""
    .ok ⟨if f == .help then 0 else 2, { files, errors := line ++ usage }⟩
  | .ok (o, operands) =>
    (Outcome.of (runOperands o e c operands) { files }).map fun r =>
      { r with world := detachStore r.world }

end CommandLine
end Firmware
