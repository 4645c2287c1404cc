/-!
# Values

One type holds what is read from source text and what evaluation yields. Lists are chains of pairs:
a chain is *proper* when it ends in the empty list, and *dotted* otherwise.

## Main definitions

* `Form`, `Native`: the built-in procedures that receive their operands raw and evaluated.
* `Value`: the values.
* `Value.chain`, `Value.items`: from a list to a chain and back.
-/

namespace MiniScheme

/-- The built-in forms, which receive their operands unevaluated. -/
inductive Form where
  | define
  | branch
  | lambda
  | binding
  | cond
  | conjunction
  | disjunction
  | quote
  | assign
  deriving DecidableEq, Repr

namespace Form

/-- The name that a form is bound to at first. -/
def name : Form → String
  | define => "define"
  | branch => "if"
  | lambda => "lambda"
  | binding => "let"
  | cond => "cond"
  | conjunction => "and"
  | disjunction => "or"
  | quote => "quote"
  | assign => "set!"

def all : List Form :=
  [define, branch, lambda, binding, cond, conjunction, disjunction, quote, assign]

theorem mem_all (f : Form) : f ∈ all := by cases f <;> simp [all]

end Form

/-- The built-in procedures that receive the values of their operands. -/
inductive Native where
  | add
  | subtract
  | multiply
  | divide
  | modulo
  | greater
  | less
  | equal
  | not
  | isNull
  | length
  | list
  | cons
  | car
  | cdr
  | apply
  deriving DecidableEq, Repr

namespace Native

def name : Native → String
  | add => "+"
  | subtract => "-"
  | multiply => "*"
  | divide => "/"
  | modulo => "modulo"
  | greater => ">"
  | less => "<"
  | equal => "="
  | not => "not"
  | isNull => "null?"
  | length => "length"
  | list => "list"
  | cons => "cons"
  | car => "car"
  | cdr => "cdr"
  | apply => "apply"

def all : List Native :=
  [add, subtract, multiply, divide, modulo, greater, less, equal, not, isNull, length, list, cons,
    car, cdr, apply]

theorem mem_all (p : Native) : p ∈ all := by cases p <;> simp [all]

end Native

abbrev TableId := Nat

/-- A value, which is also an expression.

A built-in carries the number of the installation that made it, so that the built-ins of two
installations differ. A closure keeps its parameters, the chain of its body forms and the place of
the table it captured; each closure captures a table of its own, so this place tells it from every
other closure. -/
inductive Value where
  | nil
  | integer (n : Int)
  | boolean (b : Bool)
  | string (s : String)
  | symbol (name : String)
  | pair (left right : Value)
  | quoted (v : Value)
  | form (f : Form) (installation : Nat)
  | native (p : Native) (installation : Nat)
  | closure (formals body : Value) (captured : TableId)
  | elseMarker
  deriving DecidableEq, Repr

namespace Value

instance : Inhabited Value := ⟨nil⟩

def isProcedure : Value → Bool
  | quoted _ | form _ _ | native _ _ | closure _ _ _ => true
  | _ => false

/-- Every value but the empty list counts as present. -/
def isPresent : Value → Bool
  | nil => false
  | _ => true

/-! ## Chains -/

def chain (items : List Value) (last : Value) : Value := items.foldr pair last

/-- The items of a proper chain; for a dotted chain, the value that it ends in. -/
def items : Value → Except Value (List Value)
  | nil => .ok []
  | pair left right => (left :: ·) <$> items right
  | last => .error last

@[simp] theorem chain_nil (last : Value) : chain [] last = last := rfl

@[simp] theorem chain_cons (v : Value) (vs : List Value) (last : Value) :
    chain (v :: vs) last = pair v (chain vs last) := rfl

@[simp] theorem items_chain_nil (vs : List Value) : (chain vs nil).items = .ok vs := by
  induction vs with
  | nil => rfl
  | cons v vs ih => simp [items, ih, Functor.map, Except.map]

theorem chain_of_items {v : Value} {vs : List Value} (h : v.items = .ok vs) :
    v = chain vs nil := by
  induction v generalizing vs with
  | nil => cases h; rfl
  | pair left right _ ih =>
    cases hr : right.items with
    | ok ws =>
      simp only [items, hr, Functor.map, Except.map, Except.ok.injEq] at h
      subst h
      rw [chain_cons, ← ih hr]
    | error last => simp [items, hr, Functor.map, Except.map] at h
  | _ => simp [items] at h

end Value

end MiniScheme
