import MiniScheme.Value.Printer

/-!
# Faults

What can go wrong when values are taken apart, bound and evaluated. A fault names its cause and
carries the value that caused it; `Fault.kind` says of which kind it is and `Fault.message?` words
it.
-/

namespace MiniScheme

inductive Fault.Kind where
  | unbound
  | notAProcedure
  | count
  | type
  | zeroDivisor
  | tooManyDigits
  | tooDeep
  deriving DecidableEq, Repr

inductive Fault where
  /-- A symbol that is evaluated has no binding. -/
  | unresolved (name : String)
  /-- The value in front of some operands cannot be called. -/
  | notAProcedure (v : Value)
  /-- A chain that has to be proper ends in this value. -/
  | improperChain (last : Value)
  | defineCount
  | defineTarget (v : Value)
  | branchCount
  | branchCondition (v : Value)
  | lambdaCount
  | lambdaParameter (v : Value)
  | bindingCount
  | bindingShape (binding : Value)
  | bindingName (v : Value)
  | clauseWithoutTest
  | quoteCount
  | assignCount
  | assignTarget (v : Value)
  /-- A closure is called with another number of operands than it has parameters. -/
  | operandCount (expected found : Nat)
  | nativeCount (p : Native) (expected found : Nat)
  | nativeWithoutArgument (p : Native)
  | notAnInteger (p : Native) (v : Value)
  | notAPair (p : Native) (v : Value)
  | divisionByZero
  | moduloByZero
  /-- A table is asked to bind something that is not a symbol. -/
  | bindNonSymbol (v : Value)
  | setNonSymbol (v : Value)
  | setUnbound (name : String)
  | lookupUnbound (v : Value)
  /-- A pair is made without one of its halves. -/
  | missingHalf
  /-- An integer of too many digits would have to be written. -/
  | tooManyDigits
  /-- Evaluation, comparison or writing is nested too deeply. -/
  | tooDeep
  deriving DecidableEq, Repr

namespace Fault

def kind : Fault → Kind
  | unresolved _ | setUnbound _ | lookupUnbound _ => .unbound
  | notAProcedure _ => .notAProcedure
  | defineCount | branchCount | lambdaCount | bindingCount | bindingShape _ | clauseWithoutTest
  | quoteCount | assignCount | operandCount _ _ | nativeCount _ _ _
  | nativeWithoutArgument _ => .count
  | improperChain _ | defineTarget _ | branchCondition _ | lambdaParameter _ | bindingName _
  | assignTarget _ | notAnInteger _ _ | notAPair _ _ | bindNonSymbol _ | setNonSymbol _
  | missingHalf => .type
  | divisionByZero | moduloByZero => .zeroDivisor
  | tooManyDigits => .tooManyDigits
  | tooDeep => .tooDeep

/-- The value that the wording of a fault shows. -/
def culprit? : Fault → Option Value
  | notAProcedure v | improperChain v | defineTarget v | branchCondition v | lambdaParameter v
  | bindingShape v | bindingName v | assignTarget v | notAnInteger _ v | notAPair _ v
  | bindNonSymbol v | setNonSymbol v | lookupUnbound v => some v
  | _ => none

/-- The wording of a fault. A limit that is exceeded has none. -/
def message? : Fault → Option String
  | unresolved name => some ("Unable to resolve variable " ++ name)
  | notAProcedure v => some (shown v ++ " is not a procedure")
  | improperChain last => some ("Expected a proper list, found dotted tail " ++ shown last)
  | defineCount => some "define requires exactly 2 arguments"
  | defineTarget v => some ("define first argument must be a Symbol, got " ++ shown v)
  | branchCount =>
    some "if requires a condition, a then-expression and an optional else-expression"
  | branchCondition v => some ("if expects a boolean, got " ++ shown v)
  | lambdaCount => some "lambda requires at least a parameter list"
  | lambdaParameter v => some ("lambda parameter " ++ shown v ++ " is not a symbol")
  | bindingCount => some "let requires a binding list"
  | bindingShape binding => some ("let binding must be (name value), got " ++ shown binding)
  | bindingName v => some ("let binding name must be a Symbol, got " ++ shown v)
  | clauseWithoutTest => some "cond clause requires a test"
  | quoteCount => some "Quote expects exactly 1 argument"
  | assignCount => some "set! requires exactly 2 arguments: (set! var value)"
  | assignTarget v => some ("set! first argument must be a Symbol, got " ++ shown v)
  | operandCount expected found =>
    some ("Procedure expects " ++ number expected ++ " argument(s), got " ++ number found)
  | nativeCount p expected found =>
    some (p.name ++ " requires exactly " ++ number expected ++ " argument(s), got " ++
      number found)
  | nativeWithoutArgument p => some (p.name ++ " requires at least 1 argument")
  | notAnInteger p v =>
    some ("All arguments to " ++ p.name ++ " must be integers, got " ++ shown v)
  | notAPair p v => some (p.name ++ " expects a pair, got " ++ shown v)
  | divisionByZero => some "Division by zero"
  | moduloByZero => some "Modulo by zero"
  | bindNonSymbol v => some ("Cannot define " ++ shown v ++ " as a symbol")
  | setNonSymbol v => some ("Cannot set " ++ shown v ++ ": not a symbol")
  | setUnbound name => some ("Cannot set unbound symbol " ++ name)
  | lookupUnbound v => some ("Cannot lookup unbound symbol " ++ shown v)
  | missingHalf => some "Pair children must both be present"
  | tooManyDigits => none
  | tooDeep => none
where
  /-- A value inside a message. -/
  shown (v : Value) : String := String.ofList v.write
  /-- A count inside a message. -/
  number (n : Nat) : String := String.ofList (Text.ofInteger n)

end Fault

/-! ## Taking values apart and putting them together -/

namespace Value

def properItems (v : Value) : Except Fault (List Value) := v.items.mapError .improperChain

/-- The pair of two halves, both of which have to be given. -/
def pair? : Option Value → Option Value → Except Fault Value
  | some left, some right => .ok (pair left right)
  | _, _ => .error .missingHalf

/-- Parameters are one symbol, or a proper chain of symbols. -/
def checkFormals : Value → Except Fault Unit
  | symbol _ => .ok ()
  | formals => do
    match (← formals.properItems).find? (!isSymbol ·) with
    | some v => throw (.lambdaParameter v)
    | none => return ()
where
  /-- Whether a value is a symbol. -/
  isSymbol : Value → Bool
    | symbol _ => true
    | _ => false

end Value

/-! ## Faults that cannot be worded -/

namespace Fault

def ofWriteError : Value.WriteError → Fault
  | .tooManyDigits => tooManyDigits
  | .tooDeep => tooDeep

/-- The fault that is seen when a fault arises with a depth of nesting left: the fault itself, or
what keeps it from being worded. -/
def worded (depth : Nat) (f : Fault) : Fault :=
  match f.culprit?.bind (·.obstacle? depth) with
  | none => f
  | some e => ofWriteError e

end Fault

end MiniScheme
