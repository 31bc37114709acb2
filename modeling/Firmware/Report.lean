import Firmware.Text.Numeral

/-!
# Reports and diagnostics

A report is a failure as it is shown: a bare text, a report put in context, or a classified one.
A fatal report marks a state that well-formed input never reaches, a user report is about the
program being built. A diagnostic attaches the class and the text of a report to the build variant
it arose in.
-/

namespace Firmware

inductive Kind where
  | fatal
  | user
  /-- A class without a name of its own; the code is neither 0 nor 1. -/
  | other (code : Int)
deriving DecidableEq, Repr

namespace Kind

/-- The class with the given code: 0 is fatal, 1 is user. -/
def ofCode (code : Int) : Kind :=
  if code == 0 then .fatal else if code == 1 then .user else .other code

/-- The name that diagnostics show. -/
def name : Kind → String
  | .fatal => "fatal"
  | .user => "error"
  | .other code => "Kind(" ++ Numeral.decimal code ++ ")"

/-- What stands in front of the text of a classified report. -/
def lead : Kind → String
  | .fatal => "internal error: "
  | _ => ""

end Kind

/-- A failure as it is shown. -/
inductive Report where
  | note (text : String)
  | within (context : String) (cause : Report)
  | raised (kind : Kind) (text : String)
  | raisedFrom (kind : Kind) (text : String) (cause : Report)
deriving DecidableEq, Repr, Inhabited

namespace Report

def fatal (text : String) : Report := .raised .fatal text

def fatalFrom (text : String) (cause : Report) : Report := .raisedFrom .fatal text cause

/-- A report about the program being built. -/
def user (text : String) : Report := .raised .user text

/-- The report of a condition that should have held. -/
def assertion (text : String) : Report := fatal ("assertion failed: " ++ text)

def message : Report → String
  | .note text => text
  | .within context cause => context ++ ": " ++ cause.message
  | .raised kind text => kind.lead ++ text
  | .raisedFrom kind text cause => kind.lead ++ text ++ ": " ++ cause.message

/-- The class of the outermost classified report. -/
def kind? : Report → Option Kind
  | .note _ => none
  | .within _ cause => cause.kind?
  | .raised kind _ => some kind
  | .raisedFrom kind _ _ => some kind

def cause? : Report → Option Report
  | .note _ => none
  | .within _ cause => some cause
  | .raised _ _ => none
  | .raisedFrom _ _ cause => some cause

/-- The texts of the report, of its cause, of the cause's cause, and so on. -/
def chain : Report → List String
  | .note text => [text]
  | .within context cause => (Report.within context cause).message :: cause.chain
  | .raised kind text => [kind.lead ++ text]
  | .raisedFrom kind text cause => (Report.raisedFrom kind text cause).message :: cause.chain

def isFatal (r : Report) : Bool := r.kind? == some .fatal

/-- Whether the outermost classified report is about the program being built. -/
def isUser (r : Report) : Bool := r.kind? == some .user

end Report

/-- A report collected for a build variant; the main build has the empty name. -/
structure Diagnostic where
  variant : String
  kind : Kind
  message : String
deriving DecidableEq, Repr

namespace Diagnostic

/-- The diagnostic of a report; one that is not classified counts as fatal. -/
def ofReport (variant : String) (r : Report) : Diagnostic :=
  ⟨variant, r.kind?.getD .fatal, r.message⟩

/-- One line of text, with the variant's name in front if it has one. -/
def render (d : Diagnostic) : String :=
  let text := d.kind.name ++ ": " ++ d.message
  if d.variant.isEmpty then text else d.variant ++ ": " ++ text

end Diagnostic
end Firmware
