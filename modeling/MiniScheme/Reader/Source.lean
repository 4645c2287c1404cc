import MiniScheme.Reader.Cursor
import MiniScheme.Token.Lexer

/-!
# Reading source text

A text is cut into tokens as a whole, and its tokens are read as expressions.

## Main definitions

* `Source.readAll`: the expressions of a text.
* `Source.readFirst`: the first expression of a text.
-/

namespace MiniScheme

inductive SourceError where
  | unterminated (e : Unterminated)
  | unreadable (e : ReadError)
  deriving DecidableEq, Repr

/-- The wording of an error. A limit that is exceeded has none. -/
def SourceError.message? : SourceError → Option String
  | unterminated e => some e.message
  | unreadable e => e.message?

namespace Source

def tokens (source : String) : Except SourceError (List Token) :=
  (Token.ofSource source).mapError .unterminated

/-- All expressions of a text. One error spoils them all. -/
def readAll (limit : Nat) (source : String) : Except SourceError (List Value) := do
  let reading := (Cursor.ofTokens (← tokens source)).readAll limit
  match reading.error with
  | none => return reading.forms
  | some e => throw (.unreadable e)

/-- The first expression of a text, and the empty list if there is none. What follows it is cut
into tokens, but it is not read. -/
def readFirst (limit : Nat) (source : String) : Except SourceError Value := do
  let (ended, cursor) := (Cursor.ofTokens (← tokens source)).atEnd
  if ended then return .nil else (cursor.read limit).1.mapError .unreadable

end Source

end MiniScheme
