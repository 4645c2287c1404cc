import MiniScheme.Value
import MiniScheme.Text.Integer
import MiniScheme.Text.Quoted

/-!
# The text of values

A proper chain is written as its items between brackets, a dotted chain with a dot before the value
it ends in. Strings are written between double quotes without any escape.

## Main definitions

* `Value.render`, `Value.write`: the text of a value.
* `Value.obstacle?`: what keeps a value from being written.
* `Value.text`: the text of a value that can be written.
-/

namespace MiniScheme.Value

/-- Where a value stands: by itself, or as the right half of a pair whose left half has just been
written. -/
inductive Place where
  | alone
  | right
  deriving DecidableEq, Repr

namespace Place

/-- What stands before a value that is not a part of the chain it ends. -/
def before : Place → List Char
  | alone => []
  | right => [' ', '.', ' ']

/-- What stands after a value that is not a part of the chain it ends. -/
def after : Place → List Char
  | alone => []
  | right => [')']

def opening : Place → Char
  | alone => '('
  | right => ' '

/-- The empty list, which ends a chain or stands by itself. -/
def empty : Place → List Char
  | alone => ['(', ')']
  | right => [')']

end Place

/-- The text of a value at a place, in front of other text. The text of a right half goes up to the
closing bracket of the chain. -/
def render (v : Value) (place : Place) (rest : List Char) : List Char :=
  match v with
  | nil => place.empty ++ rest
  | integer n => place.before ++ (Text.ofInteger n ++ (place.after ++ rest))
  | boolean b => place.before ++ ('#' :: (if b then 't' else 'f') :: (place.after ++ rest))
  | string s => place.before ++ ('"' :: (s.toList ++ ('"' :: (place.after ++ rest))))
  | symbol name => place.before ++ (name.toList ++ (place.after ++ rest))
  | pair left right => place.opening :: left.render .alone (right.render .right rest)
  | quoted v => place.before ++ ('\'' :: v.render .alone (place.after ++ rest))
  | form f _ =>
    place.before ++ ("#<special-form ".toList ++ (f.name.toList ++ ('>' :: (place.after ++ rest))))
  | native p _ =>
    place.before ++ ("#<procedure ".toList ++ (p.name.toList ++ ('>' :: (place.after ++ rest))))
  | closure formals body _ =>
    place.before ++ ("(lambda ".toList ++
      formals.render .alone (body.render .right (place.after ++ rest)))
  | elseMarker => place.before ++ ("else".toList ++ (place.after ++ rest))

def write (v : Value) : List Char := v.render .alone []

/-- The text of a value standing as the right half of a pair. -/
def writeRest (v : Value) : List Char := v.render .right []

/-- The text of a value does not depend on the text after it. -/
theorem render_append (v : Value) (place : Place) (rest more : List Char) :
    v.render place (rest ++ more) = v.render place rest ++ more := by
  induction v generalizing place rest with
  | pair left right ihl ihr => simp only [render, ihr, ihl, List.cons_append]
  | quoted v ih =>
    simp only [render, ← List.append_assoc place.after, ih]
    simp only [List.append_assoc, List.cons_append]
  | closure formals body _ ihf ihb => simp only [render, ← List.append_assoc, ihb, ihf]
  | _ => simp only [render, List.append_assoc, List.cons_append]

@[simp] theorem write_pair (left right : Value) :
    (pair left right).write = '(' :: (left.write ++ right.writeRest) := by
  simp only [write, writeRest, ← render_append, List.nil_append]; rfl

@[simp] theorem writeRest_nil : nil.writeRest = [')'] := rfl

@[simp] theorem writeRest_pair (left right : Value) :
    (pair left right).writeRest = ' ' :: (left.write ++ right.writeRest) := by
  simp only [write, writeRest, ← render_append, List.nil_append]; rfl

/-! ## Limits -/

inductive WriteError where
  /-- An integer has too many digits. -/
  | tooManyDigits
  /-- Brackets and quote marks are nested too deeply. -/
  | tooDeep
  deriving DecidableEq, Repr

/-- What keeps a value from being written with a depth of nesting, at the first place of its text
where anything does. A chain is written without nesting along its right halves. -/
def obstacle? : Value → (depth : Nat) → Option WriteError
  | integer n, _ => if Text.isWritable n then none else some .tooManyDigits
  | pair left right, depth =>
    match depth with
    | 0 => some .tooDeep
    | depth + 1 =>
      match left.obstacle? depth with
      | none => right.obstacle? (depth + 1)
      | some e => some e
  | quoted v, depth =>
    match depth with
    | 0 => some .tooDeep
    | depth + 1 => v.obstacle? depth
  | closure formals body _, depth =>
    match depth with
    | 0 => some .tooDeep
    | depth + 1 =>
      match formals.obstacle? depth with
      | none => body.obstacle? (depth + 1)
      | some e => some e
  | _, _ => none

def text (depth : Nat) (v : Value) : Except WriteError String :=
  match v.obstacle? depth with
  | none => .ok (String.ofList v.write)
  | some e => .error e

/-- The text of a value for inspection, which marks a symbol as one. -/
def inspect (depth : Nat) : Value → Except WriteError String
  | symbol name => .ok ("Symbol(" ++ Text.quoted name ++ ")")
  | v => v.text depth

end MiniScheme.Value
