import Firmware.Statement.Fault

/-!
# Tokens of statements

A statement is a sequence of tokens with blanks and comments between them. Every byte string has
tokens: what is none, such as a quote that nothing closes, becomes a token of a kind of its own.
-/

namespace Firmware
namespace Statement

inductive Kind where
  /-- A name without quotes, or a word of the language that can stand for one. -/
  | word
  /-- A word that can only stand for itself. -/
  | reserved
  /-- A name between double quotes, backquotes or brackets. -/
  | quotedName
  /-- A text between single quotes. -/
  | string
  | number
  | dot
  | equals
  | opening
  | closing
  | comma
  | plus
  | minus
  | semicolon
  /-- Everything else that is a token. -/
  | other
  | illegal
deriving DecidableEq, Repr

/-- A token and the text that it has in the statement. -/
structure Token where
  kind : Kind
  text : Bytes
deriving DecidableEq, Repr

/-! ## Classes of bytes -/

def isDigit (b : UInt8) : Bool := 0x30 ≤ b && b ≤ 0x39

def toLower (b : UInt8) : UInt8 := if 0x41 ≤ b && b ≤ 0x5A then b + 0x20 else b

def lower (b : Bytes) : Bytes := b.map toLower

def isHexDigit (b : UInt8) : Bool :=
  isDigit b || (0x61 ≤ toLower b && toLower b ≤ 0x66)

/-- Whether a byte can stand inside of a name without quotes. -/
def isNameByte (b : UInt8) : Bool :=
  isDigit b || (0x61 ≤ toLower b && toLower b ≤ 0x7A) || b == 0x5F || b == 0x24 || 0x80 ≤ b

def isSpace (b : UInt8) : Bool := (0x09 ≤ b && b ≤ 0x0D) || b == 0x20

/-- Whether blanks can begin with a byte: a vertical tab only goes on with them. -/
def beginsSpace (b : UInt8) : Bool := isSpace b && b != 0x0B

/-- The words that stand only for themselves. -/
def reservedWords : List String :=
  ["add", "all", "alter", "and", "as", "autoincrement", "between", "case", "check", "collate",
   "commit", "constraint", "create", "default", "deferrable", "delete", "distinct", "drop", "else",
   "escape", "except", "exists", "foreign", "from", "group", "having", "in", "index", "insert",
   "intersect", "into", "is", "isnull", "join", "limit", "not", "nothing", "notnull", "null", "on",
   "or", "order", "primary", "references", "returning", "select", "set", "table", "then", "to",
   "transaction", "union", "unique", "update", "using", "values", "when", "where"]

def wordKind (text : Bytes) : Kind :=
  if reservedWords.any (Utf8.encode · == lower text) then .reserved else .word

/-! ## Lexemes -/

/-- What stands at the start of a text: a token of some kind, or a blank, and how many bytes it
takes behind the first one. -/
structure Lexeme where
  kind : Option Kind
  more : Nat

namespace Lexeme

/-- The number of bytes up to the quote that closes a quoted text; a doubled quote does not. -/
def quoteLength? (quote : UInt8) : Bytes → Option Nat
  | [] => none
  | b :: rest =>
    if b != quote then (quoteLength? quote rest).map (· + 1)
    else
      match rest with
      | c :: rest' => if c == quote then (quoteLength? quote rest').map (· + 2) else some 0
      | [] => some 0

/-- A quoted text from behind its first quote. -/
def quoted (kind : Kind) (quote : UInt8) (rest : Bytes) : Lexeme :=
  match quoteLength? quote rest with
  | some n => ⟨some kind, n + 1⟩
  | none => ⟨some .illegal, rest.length⟩

/-- A name between brackets from behind the first one. -/
def bracketed (rest : Bytes) : Lexeme :=
  let name := rest.takeWhile (· != 0x5D)
  if name.length < rest.length then ⟨some .quotedName, name.length + 1⟩
  else ⟨some .illegal, rest.length⟩

/-- The digits at the start of a text; underscores can stand between them. -/
def digits (isDigit : UInt8 → Bool) (b : Bytes) : Bytes :=
  b.takeWhile fun d => isDigit d || d == 0x5F

/-- The exponent at the start of a text. -/
def exponent : Bytes → Bytes
  | e :: d :: rest =>
    if toLower e != 0x65 then []
    else if isDigit d then e :: d :: digits isDigit rest
    else if (d == 0x2B || d == 0x2D) && (rest.head?.any isDigit) then
      e :: d :: digits isDigit rest
    else []
  | _ => []

/-- The number at the start of a text, without what makes it illegal. -/
def numeral (b : Bytes) : Bytes :=
  let decimal :=
    let whole := digits isDigit b
    let fraction := match b.drop whole.length with
      | 0x2E :: rest => 0x2E :: digits isDigit rest
      | _ => []
    whole ++ fraction ++ exponent (b.drop (whole.length + fraction.length))
  match b with
  | 0x30 :: x :: d :: rest =>
    if toLower x == 0x78 && isHexDigit d then 0x30 :: x :: d :: digits isHexDigit rest else decimal
  | _ => decimal

/-- A number. Letters that follow it directly make it illegal. -/
def number (b : Bytes) : Lexeme :=
  let body := numeral b
  let tail := (b.drop body.length).takeWhile isNameByte
  let kind := if !tail.isEmpty then Kind.illegal
    else if body.contains 0x5F then .other
    else .number
  ⟨some kind, body.length + tail.length - 1⟩

def word (b : Bytes) : Lexeme :=
  let text := b.takeWhile isNameByte
  ⟨some (wordKind text), text.length - 1⟩

/-- A binary literal from behind its letter and quote. -/
def blob (rest : Bytes) : Lexeme :=
  let digits := rest.takeWhile isHexDigit
  let whole := rest.takeWhile (· != 0x27)
  let kind := if digits.length == whole.length && whole.length < rest.length &&
    digits.length % 2 == 0 then Kind.other else .illegal
  ⟨some kind, min (whole.length + 2) (rest.length + 1)⟩

/-- The length of a parameter's name, whether it has one, and whether it is well formed. A name can
hold double colons, and an index between parentheses ends it. -/
def parameterName (hasName : Bool) : Bytes → Nat × Bool
  | [] => (0, hasName)
  | b :: rest =>
    if isNameByte b then
      let (n, isFine) := parameterName true rest
      (n + 1, isFine)
    else if b == 0x28 && hasName then
      let index := rest.takeWhile fun c => !isSpace c && c != 0x29
      if (rest.drop index.length).head? == some 0x29 then (index.length + 2, true)
      else (index.length + 1, false)
    else if b == 0x3A then
      match rest with
      | 0x3A :: rest' =>
        let (n, isFine) := parameterName hasName rest'
        (n + 2, isFine)
      | _ => (0, hasName)
    else (0, hasName)

/-- A parameter from behind its sign. -/
def parameter (rest : Bytes) : Lexeme :=
  let (n, isFine) := parameterName false rest
  ⟨some (if isFine then .other else .illegal), n⟩

/-- A comment from behind its slash and star. -/
def comment (rest : Bytes) : Lexeme :=
  match Bytes.find? rest [0x2A, 0x2F] with
  | some n => ⟨none, n + 3⟩
  | none => ⟨none, rest.length + 1⟩

/-- The lexeme that begins with a punctuation mark or with a byte that begins nothing else. -/
def mark (first : UInt8) (rest : Bytes) : Lexeme :=
  let next := rest.head?
  let goesOnWith (marks : List UInt8) : Bool := next.any marks.contains
  match first with
  | 0x28 => ⟨some .opening, 0⟩
  | 0x29 => ⟨some .closing, 0⟩
  | 0x2C => ⟨some .comma, 0⟩
  | 0x2B => ⟨some .plus, 0⟩
  | 0x3B => ⟨some .semicolon, 0⟩
  | 0x2E => ⟨some .dot, 0⟩
  | 0x2D =>
    match rest with
    | 0x2D :: rest => ⟨none, 1 + (rest.takeWhile (· != 0x0A)).length⟩
    | 0x3E :: rest => ⟨some .other, if rest.head? == some 0x3E then 2 else 1⟩
    | _ => ⟨some .minus, 0⟩
  | 0x2F =>
    match rest with
    | 0x2A :: b :: rest => comment (b :: rest)
    | _ => ⟨some .other, 0⟩
  | 0x3D => ⟨some .equals, if goesOnWith [0x3D] then 1 else 0⟩
  | 0x3C => ⟨some .other, if goesOnWith [0x3D, 0x3E, 0x3C] then 1 else 0⟩
  | 0x3E => ⟨some .other, if goesOnWith [0x3D, 0x3E] then 1 else 0⟩
  | 0x21 => if goesOnWith [0x3D] then ⟨some .other, 1⟩ else ⟨some .illegal, 0⟩
  | 0x7C => ⟨some .other, if goesOnWith [0x7C] then 1 else 0⟩
  | 0x3F => ⟨some .other, (rest.takeWhile isDigit).length⟩
  | _ => if [0x2A, 0x25, 0x26, 0x7E].contains first then ⟨some .other, 0⟩ else ⟨some .illegal, 0⟩

/-- The lexeme that a text begins with, by its first byte and the rest. -/
def read (first : UInt8) (rest : Bytes) : Lexeme :=
  if beginsSpace first then ⟨none, (rest.takeWhile isSpace).length⟩
  else if first == 0x27 then quoted .string first rest
  else if first == 0x22 || first == 0x60 then quoted .quotedName first rest
  else if first == 0x5B then bracketed rest
  else if isDigit first || (first == 0x2E && rest.head?.any isDigit) then number (first :: rest)
  else if [0x24, 0x40, 0x3A, 0x23].contains first then parameter rest
  else if toLower first == 0x78 && rest.head? == some 0x27 then blob (rest.drop 1)
  else if first == 0xEF && rest.take 2 == [0xBB, 0xBF] then ⟨none, 2⟩
  else if isNameByte first then word (first :: rest)
  else mark first rest

end Lexeme

def tokens (b : Bytes) : List Token :=
  match b with
  | [] => []
  | first :: rest =>
    let lexeme := Lexeme.read first rest
    match lexeme.kind with
    | some kind => ⟨kind, first :: rest.take lexeme.more⟩ :: tokens (rest.drop lexeme.more)
    | none => tokens (rest.drop lexeme.more)
termination_by b.length
decreasing_by all_goals simp only [List.length_drop, List.length_cons]; omega

/-! ## Names -/

/-- A quoted text without the doubling of its quotes. -/
def unquote (quote : UInt8) : Bytes → Bytes
  | [] => []
  | b :: rest =>
    if b != quote then b :: unquote quote rest
    else
      match rest with
      | c :: rest' => if c == quote then c :: unquote quote rest' else []
      | [] => []

namespace Token

def isName (t : Token) : Bool := t.kind == .word || t.kind == .quotedName || t.kind == .string

/-- What a token stands for: its text without quotes. -/
def value (t : Token) : Bytes :=
  match t.text with
  | [] => []
  | first :: rest =>
    if [0x22, 0x27, 0x60].contains first then unquote first rest
    else if first == 0x5B then unquote 0x5D rest
    else t.text

/-- Whether a token is the given word of the language, in any case. -/
def isWord (t : Token) (word : String) : Bool :=
  (t.kind == .word || t.kind == .reserved) && lower t.text == Utf8.encode word

end Token

/-- Why a statement cannot go on with these tokens. -/
def unexpected : List Token → Fault
  | [] => .incomplete
  | t :: _ => if t.kind == .illegal then .unrecognized t.text else .unexpected t.text

/-- The statements of a text: the tokens up to each semicolon, with it. -/
def statements (ts : List Token) : List (List Token) :=
  ts.foldr (fun t done =>
    if t.kind == .semicolon then [t] :: done
    else
      match done with
      | [] => [[t]]
      | first :: rest => (t :: first) :: rest) []

end Statement
end Firmware
