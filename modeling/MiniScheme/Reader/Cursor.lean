import MiniScheme.Reader

/-!
# Reading at a cursor

A cursor is a position in a list of tokens. It is moved token by token or expression by
expression, and it stays where it is after a failure, so reading can go on from there.

## Main definitions

* `Cursor.peek`, `Cursor.advance`: looking at the next token and taking it.
* `Cursor.read`, `Cursor.readAll`: taking one expression, and all of them.
-/

namespace MiniScheme

/-- A position in a list of tokens: how many tokens stand before it, and those after it. -/
structure Cursor where
  index : Nat
  rest : List Token
  deriving DecidableEq, Repr

namespace Cursor

def ofTokens (tokens : List Token) : Cursor := ⟨0, tokens⟩

def skipLines (c : Cursor) : Cursor :=
  go c.index c.rest
where
  /-- Moves past the ends of lines that some tokens begin with. -/
  go (index : Nat) : List Token → Cursor
    | .endOfLine :: rest => go (index + 1) rest
    | rest => ⟨index, rest⟩

/-- The next token that is not the end of a line, and the cursor before it. -/
def peek (c : Cursor) : Option Token × Cursor :=
  let c := c.skipLines
  (c.rest.head?, c)

/-- Whether no token but ends of lines is left, and the cursor past these. -/
def atEnd (c : Cursor) : Bool × Cursor :=
  let c := c.skipLines
  (c.rest.isEmpty, c)

/-- Takes the next token that is not the end of a line. A token that is not of the expected kind is
left where it is. -/
def advance (expected : Option Token.Kind) (c : Cursor) : Except ReadError Token × Cursor :=
  let c := c.skipLines
  match c.rest with
  | [] => (.error (.endOfInput expected), c)
  | t :: rest =>
    match expected with
    | some kind =>
      if t.kind = kind then (.ok t, ⟨c.index + 1, rest⟩) else (.error (.mismatch kind t), c)
    | none => (.ok t, ⟨c.index + 1, rest⟩)

/-- Reads on from a state of the reader to the end of its expression. -/
def readFrom (limit : Nat) : Reader.State → (index : Nat) → List Token →
    Except ReadError Value × Cursor
  | state, index, [] => (.error state.endOfInput, ⟨index, []⟩)
  | state, index, .endOfLine :: rest => readFrom limit state (index + 1) rest
  | state, index, t :: rest =>
    match Reader.feed limit state t with
    | .proceed next => readFrom limit next (index + 1) rest
    | .done v => (.ok v, ⟨index + 1, rest⟩)
    | .fail e true => (.error e, ⟨index + 1, rest⟩)
    | .fail e false => (.error e, ⟨index, t :: rest⟩)

def read (limit : Nat) (c : Cursor) : Except ReadError Value × Cursor :=
  readFrom limit .initial c.index c.rest

/-- The outcome of reading all expressions: those that were complete, the error that ended the
reading, if any, and where it ended. -/
structure Reading where
  forms : List Value
  error : Option ReadError
  cursor : Cursor
  deriving DecidableEq, Repr

def Reading.cons (v : Value) (r : Reading) : Reading := { r with forms := v :: r.forms }

/-- Reads on from a state of the reader to the end of the tokens. -/
def readAllFrom (limit : Nat) : Reader.State → (index : Nat) → List Token → Reading
  | state, index, [] =>
    ⟨[], if state = .initial then none else some state.endOfInput, ⟨index, []⟩⟩
  | state, index, .endOfLine :: rest => readAllFrom limit state (index + 1) rest
  | state, index, t :: rest =>
    match Reader.feed limit state t with
    | .proceed next => readAllFrom limit next (index + 1) rest
    | .done v => (readAllFrom limit .initial (index + 1) rest).cons v
    | .fail e true => ⟨[], some e, ⟨index + 1, rest⟩⟩
    | .fail e false => ⟨[], some e, ⟨index, t :: rest⟩⟩

/-- Reads expressions until no token but ends of lines is left. -/
def readAll (limit : Nat) (c : Cursor) : Reading :=
  readAllFrom limit .initial c.index c.rest

end Cursor

end MiniScheme
