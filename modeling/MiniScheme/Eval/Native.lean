import MiniScheme.Eval.Level
import MiniScheme.Value.Equal

/-!
# Native procedures

A native evaluates its operands from left to right and computes its answer from their values. Only
`apply` evaluates more than that.

## Main definitions

* `Native.compute`: the answer to some arguments.
* `Native.run`: a call of a native.
-/

namespace MiniScheme

namespace Native

/-- How many arguments a native takes that takes a fixed number. -/
def arity : Native → Nat
  | not | isNull | length | car | cdr => 1
  | modulo | greater | less | equal | cons | apply => 2
  | add | subtract | multiply | divide | list => 0

def integers (p : Native) : List Value → Except Fault (List Int)
  | [] => .ok []
  | .integer n :: vs => (n :: ·) <$> integers p vs
  | v :: _ => .error (.notAnInteger p v)

def integerPair (p : Native) : Value → Value → Except Fault (Int × Int)
  | .integer m, .integer n => .ok (m, n)
  | .integer _, v => .error (.notAnInteger p v)
  | v, _ => .error (.notAnInteger p v)

/-- Divides an integer by others in turn, each time rounding toward zero. -/
def quotients (n : Int) : List Int → Except Fault Int
  | [] => .ok n
  | d :: ds => if d = 0 then .error .divisionByZero else quotients (n.tdiv d) ds

/-- The remainder that has the sign of the divisor. -/
def remainder (n d : Int) : Except Fault Int :=
  if d = 0 then .error .moduloByZero else .ok (n.fmod d)

/-- The answer of a native to its arguments, with a depth left to compare values. `apply` has no
answer of its own. -/
def compute (depth : Nat) : Native → List Value → Except Fault Value
  | add, args => do return .integer ((← integers add args).foldl (· + ·) 0)
  | subtract, args => do
    match ← integers subtract args with
    | [] => throw (.nativeWithoutArgument subtract)
    | n :: ns => return .integer (ns.foldl (· - ·) n)
  | multiply, args => do return .integer ((← integers multiply args).foldl (· * ·) 1)
  | divide, args => do
    match ← integers divide args with
    | [] => throw (.nativeWithoutArgument divide)
    | n :: ds => return .integer (← quotients n ds)
  | modulo, [a, b] => do
    let (n, d) ← integerPair modulo a b
    return .integer (← remainder n d)
  | greater, [a, b] => do
    let (m, n) ← integerPair greater a b
    return .boolean (n < m)
  | less, [a, b] => do
    let (m, n) ← integerPair less a b
    return .boolean (m < n)
  | equal, [a, b] =>
    match a.equal? depth b with
    | some answer => .ok (.boolean answer)
    | none => .error .tooDeep
  | not, [a] => .ok (.boolean (a = .boolean false))
  | isNull, [a] => .ok (.boolean (a = .nil))
  | length, [a] => do return .integer (← a.properItems).length
  | list, args => .ok (Value.chain args .nil)
  | cons, [a, b] => .ok (.pair a b)
  | car, [.pair left _] => .ok left
  | car, [v] => .error (.notAPair car v)
  | cdr, [.pair _ right] => .ok right
  | cdr, [v] => .error (.notAPair cdr v)
  | p, args => .error (.nativeCount p p.arity args.length)

/-- Calls a native on operands. `apply` hands its second argument on as the operands of its first,
as it stands. -/
def run (level : Level) (env : Env) (p : Native) (operands : Value) : EvalM Value := do
  let args ← level.evaluateAll env (← level.items operands)
  match p, args with
  | apply, [f, operands] => level.apply env f operands
  | p, args => level.lift (p.compute level.depth args)

end Native

end MiniScheme
