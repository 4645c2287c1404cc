/-!
# Tokens

The lexical units of source text. A token carries what distinguishes it from the other tokens of
its kind; `Token.text` gives back the characters it was written with.

## Main definitions

* `Token.Kind`: the eight kinds and their names.
* `Token`: one lexical unit.
-/

namespace MiniScheme

inductive Token.Kind where
  | openParen
  | closeParen
  | quoteMark
  | integer
  | boolean
  | string
  | endOfLine
  | symbol
  deriving DecidableEq, Repr

namespace Token.Kind

def name : Kind → String
  | openParen => "open-paren"
  | closeParen => "close-paren"
  | quoteMark => "quote-mark"
  | integer => "integer-literal"
  | boolean => "boolean-literal"
  | string => "string-literal"
  | endOfLine => "end-of-line"
  | symbol => "symbol"

def all : List Kind :=
  [openParen, closeParen, quoteMark, integer, boolean, string, endOfLine, symbol]

def ofName? (s : String) : Option Kind := all.find? (·.name == s)

theorem mem_all (k : Kind) : k ∈ all := by cases k <;> simp [all]

end Token.Kind

/-- A lexical unit. An integer keeps its lexeme, because its value is taken only when it is read;
a string holds the characters between its two double quotes. -/
inductive Token where
  | openParen
  | closeParen
  | quoteMark
  | integer (lexeme : String)
  | boolean (value : Bool)
  | string (contents : String)
  | endOfLine
  | symbol (name : String)
  deriving DecidableEq, Repr

namespace Token

def kind : Token → Kind
  | openParen => .openParen
  | closeParen => .closeParen
  | quoteMark => .quoteMark
  | integer _ => .integer
  | boolean _ => .boolean
  | string _ => .string
  | endOfLine => .endOfLine
  | symbol _ => .symbol

def text : Token → String
  | openParen => "("
  | closeParen => ")"
  | quoteMark => "'"
  | integer lexeme => lexeme
  | boolean true => "#t"
  | boolean false => "#f"
  | string contents => "\"" ++ contents ++ "\""
  | endOfLine => "\n"
  | symbol name => name

end Token

end MiniScheme
