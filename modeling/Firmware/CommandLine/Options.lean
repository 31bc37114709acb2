import Firmware.Failure

/-!
# Options

The options of the command: their values, the texts that explain them, and how they are read off
the arguments. Reading stops at the first argument that is no option, at a lone dash, and behind a
double dash. An option is written with one dash or two; its value follows an equals sign or is the
next argument, except that an option that is a switch takes its value only behind an equals sign.
-/

namespace Firmware
namespace CommandLine

structure Options where
  /-- How much is logged. -/
  verbosity : Int := 0
  projectDirectory : String := "."
  /-- The database of templates; empty for the default one. -/
  storePath : String := ""
  withoutStore : Bool := false
  outputDirectory : String := "built"
  /-- The one variant to build; empty for all. -/
  only : String := ""
deriving DecidableEq, Repr

inductive OptionFault where
  /-- The usage was asked for. -/
  | help
  | malformed (argument : String)
  | unknown (name : String)
  | withoutValue (name : String)
  | badSwitch (name value : String)
  | badValue (name value : String) (fault : Numeral.Fault)
deriving DecidableEq, Repr

namespace OptionFault

def numberText : Numeral.Fault → String
  | .malformed => "parse error"
  | .tooLarge => "value out of range"

/-- The line that is shown in front of the usage, if there is one. -/
def message? : OptionFault → Option String
  | .help => none
  | .malformed argument => some ("bad flag syntax: " ++ argument)
  | .unknown name => some ("flag provided but not defined: -" ++ name)
  | .withoutValue name => some ("flag needs an argument: -" ++ name)
  | .badSwitch name value =>
    some ("invalid boolean value " ++ Text.quote value ++ " for -" ++ name ++ ": parse error")
  | .badValue name value fault =>
    some ("invalid value " ++ Text.quote value ++ " for flag -" ++ name ++ ": " ++
      numberText fault)

end OptionFault

/-! ## Usage -/

/-- An option as the usage shows it. -/
structure OptionHelp where
  name : String
  valueKind : String
  text : String
  /-- The value that is used when none is given; not shown when empty. -/
  fallback : String := ""

def optionHelp : List OptionHelp :=
  [⟨"C", "string", "Project directory (searched upwards for flashlink.toml)", "."⟩,
   ⟨"cache-db", "string", "Template cache database (default: user cache dir)", ""⟩,
   ⟨"no-cache", "", "Do not persist parsed templates", ""⟩,
   ⟨"o", "string", "Output directory (used with patch)", "built"⟩,
   ⟨"v", "int", "Log verbosity (0-4)", ""⟩,
   ⟨"variant", "string", "Build only the named variant (used with patch)", ""⟩]

/-- The lines that explain an option. -/
def OptionHelp.render (h : OptionHelp) : String :=
  "  -" ++ h.name ++ (if h.valueKind.isEmpty then "" else " " ++ h.valueKind) ++ "\n    \t" ++
    h.text ++
    (if h.fallback.isEmpty then "" else " (default " ++ Text.quote h.fallback ++ ")") ++ "\n"

def usage : String :=
  "Usage: flashlink [options] inspect\n" ++
  "       flashlink [options] patch program.bin\n" ++
  "       flashlink [options] cache list|clear [sha...]\n\n" ++
  "Links assembled programs into runtime templates (Intel HEX, UF2, ELF, ESP32).\n\n" ++
  "Options:\n" ++
  String.join (optionHelp.map OptionHelp.render) ++
  "\nExamples:\n" ++
  "  flashlink inspect                    # Show the parsed templates\n" ++
  "  flashlink -o out patch prog.bin      # Patch prog.bin into every variant\n" ++
  "  flashlink -variant n3 patch prog.bin # Build one variant only\n" ++
  "  flashlink cache list                 # Show cached template SHAs\n" ++
  "  flashlink cache clear                # Drop every cached template\n"

/-! ## Reading -/

inductive Argument where
  | operand
  /-- A double dash. -/
  | separator
  | malformed
  | option (name : String) (value : Option String)

/-- Cuts the name of an option at the first equals sign behind its first character. -/
def splitValue : List Char → String × Option String
  | [] => ("", none)
  | c :: rest =>
    let name := String.ofList (c :: rest.takeWhile (· != '='))
    match rest.dropWhile (· != '=') with
    | _ :: value => (name, some (String.ofList value))
    | [] => (name, none)

def Argument.ofName : List Char → Argument
  | [] => .malformed
  | c :: rest =>
    if c == '-' || c == '=' then .malformed
    else
      let (name, value) := splitValue (c :: rest)
      .option name value

def Argument.classify (argument : String) : Argument :=
  match argument.toList with
  | ['-'] => .operand
  | ['-', '-'] => .separator
  | '-' :: '-' :: name => .ofName name
  | '-' :: name => .ofName name
  | _ => .operand

def switchValue? (text : String) : Option Bool :=
  if ["1", "t", "T", "TRUE", "true", "True"].contains text then some true
  else if ["0", "f", "F", "FALSE", "false", "False"].contains text then some false
  else none

def Options.set (o : Options) (name value : String) : Except OptionFault Options :=
  match name with
  | "C" => .ok { o with projectDirectory := value }
  | "cache-db" => .ok { o with storePath := value }
  | "o" => .ok { o with outputDirectory := value }
  | "variant" => .ok { o with only := value }
  | "v" =>
    match Numeral.readSigned (Utf8.encode value) with
    | .ok n => .ok { o with verbosity := n }
    | .error f => .error (.badValue name value f)
  | _ => .error (.unknown name)

/-- Reads options off the arguments. Gives the operands that follow. -/
def Options.parse (o : Options) : List String → Except OptionFault (Options × List String)
  | [] => .ok (o, [])
  | argument :: rest =>
    match Argument.classify argument with
    | .operand => .ok (o, argument :: rest)
    | .separator => .ok (o, rest)
    | .malformed => .error (.malformed argument)
    | .option name value =>
      if name == "no-cache" then
        match value with
        | none => parse { o with withoutStore := true } rest
        | some text =>
          match switchValue? text with
          | some b => parse { o with withoutStore := b } rest
          | none => .error (.badSwitch name text)
      else if optionHelp.any (·.name == name) then
        match value with
        | some text =>
          match o.set name text with
          | .ok o => parse o rest
          | .error f => .error f
        | none =>
          match rest with
          | [] => .error (.withoutValue name)
          | text :: rest =>
            match o.set name text with
            | .ok o => parse o rest
            | .error f => .error f
      else if name == "help" || name == "h" then .error .help
      else .error (.unknown name)

end CommandLine
end Firmware
