import MiniScheme.Token
import MiniScheme.Value
import MiniScheme.Text.Integer
import MiniScheme.Text.Quoted

/-!
# From tokens to values

An expression is a literal, a symbol, a quote mark before an expression, or a list in brackets. In
a list, a dot after at least one item is followed by one expression, in which the chain ends, and
by the closing bracket. Everywhere else the dot is a symbol. Ends of lines mean nothing.

The reader is a stack machine: the stack holds the expressions that are open, innermost first, and
each token either opens one, completes one, or cannot stand where it stands.

## Main definitions

* `ReadError`: why reading fails.
* `Reader.State`, `Reader.feed`: the machine and its step.
-/

namespace MiniScheme

inductive ReadError where
  /-- The tokens end before a token of the given kind, or before any expression. -/
  | endOfInput (expected : Option Token.Kind)
  /-- A token of another kind has to stand here. -/
  | mismatch (expected : Token.Kind) (found : Token)
  /-- No expression starts with this token. -/
  | unhandled (found : Token)
  /-- An integer has too many digits. The same error meets a lexeme that is no integer at all; the
  scanner makes none. -/
  | tooManyDigits
  /-- Expressions are nested too deeply. -/
  | tooDeep
  deriving DecidableEq, Repr

namespace ReadError

/-- A token as messages show it: its kind and its quoted text. -/
def describe (t : Token) : String := t.kind.name ++ " " ++ Text.quoted t.text

/-- The wording of an error. A limit that is exceeded has none. -/
def message? : ReadError → Option String
  | endOfInput expected =>
    some ("End of input, expecting " ++ (expected.map Token.Kind.name).getD "an expression")
  | mismatch expected found => some ("Expected " ++ expected.name ++ ", got " ++ describe found)
  | unhandled found => some ("Unhandled token " ++ describe found)
  | tooManyDigits => none
  | tooDeep => none

end ReadError

namespace Reader

/-- An expression that is open: one after a quote mark, a list after some items, or a list after
its dot. Items are kept in reverse. -/
inductive Open where
  | quote
  | list (items : List Value)
  | dotted (items : List Value)
  deriving DecidableEq, Repr

def Open.weight : Open → Nat
  | quote => 1
  | list _ => 2
  | dotted _ => 2

/-- What may come next: an expression or the end of the innermost open list; or nothing but the
bracket that closes a dotted chain, which is complete otherwise. -/
inductive State where
  | inside (stack : List Open)
  | closing (complete : Value) (stack : List Open)
  deriving DecidableEq, Repr

def State.initial : State := .inside []

/-- The outcome of a token: the reading goes on, it ends with a value, or it fails. A token that
was only looked at is left to be read again. -/
inductive Step where
  | proceed (next : State)
  | done (v : Value)
  | fail (e : ReadError) (consumed : Bool)
  deriving DecidableEq, Repr

/-- Hands a complete value to the innermost open expression. -/
def deliver (v : Value) : List Open → Step
  | [] => .done v
  | .quote :: stack => deliver (.quoted v) stack
  | .list items :: stack => .proceed (.inside (.list (v :: items) :: stack))
  | .dotted items :: stack => .proceed (.closing (Value.chain items.reverse v) stack)

def depth (stack : List Open) : Nat := stack.foldr (fun o d => o.weight + d) 0

def push (limit : Nat) (o : Open) (stack : List Open) : Step :=
  if depth (o :: stack) < limit then .proceed (.inside (o :: stack)) else .fail .tooDeep true

/-- A token where an expression has to start. -/
def feedExpression (limit : Nat) (stack : List Open) : Token → Step
  | .quoteMark => push limit .quote stack
  | .openParen => push limit (.list []) stack
  | .boolean b => deliver (.boolean b) stack
  | .integer lexeme =>
    match Text.toInteger? lexeme.toList with
    | some n => deliver (.integer n) stack
    | none => .fail .tooManyDigits true
  | .string s => deliver (.string s) stack
  | .symbol name => deliver (.symbol name) stack
  | t => .fail (.unhandled t) true

/-- One token other than the end of a line. -/
def feed (limit : Nat) : State → Token → Step
  | .closing v stack, t =>
    if t = .closeParen then deliver v stack else .fail (.mismatch .closeParen t) false
  | .inside (.list items :: stack), .closeParen => deliver (Value.chain items.reverse .nil) stack
  | .inside (.list (v :: items) :: stack), .symbol "." =>
    .proceed (.inside (.dotted (v :: items) :: stack))
  | .inside stack, t => feedExpression limit stack t

def State.endOfInput : State → ReadError
  | .inside (.list _ :: _) => .endOfInput (some .closeParen)
  | .inside _ => .endOfInput none
  | .closing _ _ => .endOfInput (some .closeParen)

end Reader

end MiniScheme
