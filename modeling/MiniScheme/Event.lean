import MiniScheme.Value.Printer

/-!
# Events

What a session reports while it works, for someone who follows it.
-/

namespace MiniScheme

inductive Event where
  /-- The process-wide limit on nesting is raised. -/
  | raisingLimit (old new : Nat)
  | loadingPrelude (path : String)
  | noPrelude (path : String)
  /-- An expression has been read. -/
  | read (v : Value)
  /-- An expression that was read has been evaluated. -/
  | evaluated (v : Value)
  /-- A pair is about to be evaluated. -/
  | applying (operator operands : Value)
  /-- A parameter is bound to the value of its operand. -/
  | binding (parameter v : Value)
  /-- A lone parameter is bound to the operands as they stand. -/
  | bindingOperands (parameter : String) (operands : Value)
  deriving DecidableEq, Repr

namespace Event

/-- The values that the wording of an event shows, in order. -/
def values : Event → List Value
  | raisingLimit _ _ | loadingPrelude _ | noPrelude _ => []
  | read v | evaluated v | bindingOperands _ v => [v]
  | applying operator operands => [operator, operands]
  | binding parameter v => [parameter, v]

def obstacle? (depth : Nat) (e : Event) : Option Value.WriteError :=
  e.values.findSome? (·.obstacle? depth)

def message : Event → String
  | raisingLimit old new =>
    "raising process-wide recursion limit from " ++ number old ++ " to " ++ number new
  | loadingPrelude path => "loading prelude " ++ path
  | noPrelude path => "no prelude at " ++ path
  | read v => "parsed: " ++ shown v
  | evaluated v => "evaluated: " ++ shown v
  | applying operator operands => "evaluating " ++ shown operator ++ " with " ++ shown operands
  | binding parameter v => "   setting " ++ shown parameter ++ "=" ++ shown v
  | bindingOperands parameter operands =>
    "   setting " ++ parameter ++ "=" ++ shown operands ++ " (unevaluated)"
where
  /-- A value inside a message. -/
  shown (v : Value) : String := String.ofList v.write
  /-- A limit inside a message. -/
  number (n : Nat) : String := String.ofList (Text.ofInteger n)

end Event

end MiniScheme
