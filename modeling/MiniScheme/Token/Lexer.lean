import MiniScheme.Token
import MiniScheme.Text.Blank
import MiniScheme.Text.Integer

/-!
# From text to tokens

A line is scanned by a transducer that reads one character at a time and emits the tokens which
that character completes. A text is scanned line by line, with an end-of-line token after each.

## Main definitions

* `Token.classify`: the token of an atom.
* `Token.ofLine`: the tokens of one line.
* `Token.ofSource`: the tokens of a text.
-/

namespace MiniScheme

/-- A string that no double quote closes: where it opens, and the text from its opening quote to
the end of the line. A column counts from one; a line has whatever number its reader gave it. -/
structure Unterminated where
  line : Int
  column : Nat
  rest : String
  deriving DecidableEq, Repr

def Unterminated.message (e : Unterminated) : String :=
  "Unterminated string at " ++ String.ofList (Text.ofInteger e.line) ++ ":" ++
    String.ofList (Text.ofInteger e.column) ++ ": " ++ e.rest

namespace Token

/-- The token of a run of characters that no delimiter interrupts: an integer, a boolean, or else
a symbol. -/
def classify (lexeme : List Char) : Token :=
  if Text.isInteger lexeme then .integer (String.ofList lexeme)
  else if lexeme = ['#', 't'] then .boolean true
  else if lexeme = ['#', 'f'] then .boolean false
  else .symbol (String.ofList lexeme)

namespace Lexer

inductive Role where
  | blank
  | openParen
  | closeParen
  | quoteMark
  | stringMark
  | commentMark
  | atomic
  deriving DecidableEq, Repr

/-- The part a character plays outside strings and comments. -/
def role (c : Char) : Role :=
  if Text.isBlank c then .blank
  else if c = '(' then .openParen
  else if c = ')' then .closeParen
  else if c = '\'' then .quoteMark
  else if c = '"' then .stringMark
  else if c = ';' then .commentMark
  else .atomic

/-- What the scanner is in the middle of. Characters collected so far are kept in reverse. -/
inductive Mode where
  | between
  | atom (collected : List Char)
  | string (column : Nat) (collected : List Char)
  | comment
  deriving DecidableEq, Repr

/-- What a character that no atom, string or comment holds emits and begins. -/
def start (column : Nat) (c : Char) : List Token × Mode :=
  match role c with
  | .blank => ([], .between)
  | .openParen => ([.openParen], .between)
  | .closeParen => ([.closeParen], .between)
  | .quoteMark => ([.quoteMark], .between)
  | .stringMark => ([], .string column [])
  | .commentMark => ([], .comment)
  | .atomic => ([], .atom [c])

/-- One character at a column: the tokens it completes and what the scanner is in afterwards. -/
def Mode.step (column : Nat) (c : Char) : Mode → List Token × Mode
  | .between => start column c
  | .atom collected =>
    if role c = .atomic then ([], .atom (c :: collected))
    else
      let (emitted, next) := start column c
      (classify collected.reverse :: emitted, next)
  | .string opened collected =>
    if c = '"' then ([.string (String.ofList collected.reverse)], .between)
    else ([], .string opened (c :: collected))
  | .comment => ([], .comment)

def Mode.finish (line : Int) : Mode → Except Unterminated (List Token)
  | .between => .ok []
  | .atom collected => .ok [classify collected.reverse]
  | .string opened collected => .error ⟨line, opened, String.ofList ('"' :: collected.reverse)⟩
  | .comment => .ok []

def scan (line : Int) : Mode → (column : Nat) → List Char → Except Unterminated (List Token)
  | mode, _, [] => mode.finish line
  | mode, column, c :: cs =>
    let (emitted, next) := mode.step column c
    (emitted ++ ·) <$> scan line next (column + 1) cs

end Lexer

/-- The tokens of one line, which has the given number. The line is not split further: a line
break in it is a blank, or a part of the string or comment that it stands in. -/
def ofLine (line : Int) (cs : List Char) : Except Unterminated (List Token) :=
  Lexer.scan line .between 1 cs

def ofLines : (line : Int) → List (List Char) → Except Unterminated (List Token)
  | _, [] => .ok []
  | line, l :: ls => do
    let first ← ofLine line l
    let rest ← ofLines (line + 1) ls
    return first ++ .endOfLine :: rest

def ofSource (source : String) : Except Unterminated (List Token) :=
  ofLines 1 (Text.lines source.toList)

end Token

end MiniScheme
