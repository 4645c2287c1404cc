import MiniScheme.Eval.Level

/-!
# Closures

A lambda expression makes a closure, which captures everything visible around it as one table. A
call binds the operands in a fresh scope; in front of the caller's environment stands the captured
table, and in front of that the fresh scope.

## Main definitions

* `Closure.bind`: binding operands to parameters.
* `Closure.run`: a call of a closure.
-/

namespace MiniScheme

namespace Closure

variable (level : Level) (caller : Env) (frame : TableId)

def bindParameter (parameter v : Value) : EvalM Unit :=
  match parameter with
  | .symbol x => EvalM.define frame x v
  | other => level.raise (.bindNonSymbol other)

/-- Evaluates operands in the caller's environment from left to right and binds each to its
parameter before the next one is evaluated. -/
def bindEach : (parameters operands : List Value) → EvalM Unit
  | parameter :: parameters, e :: es => do
    let v ← level.evaluate caller e
    level.report (.binding parameter v)
    bindParameter level frame parameter v
    bindEach parameters es
  | _, _ => pure ()

/-- Binds operands to parameters in the table at a place. A lone symbol is bound to the operands as
they stand; a chain of parameters needs as many operands. -/
def bind (formals operands : Value) : EvalM Unit :=
  match formals with
  | .symbol x => do
    level.report (.bindingOperands x operands)
    EvalM.define frame x operands
  | _ => do
    let parameters ← level.items formals
    let es ← level.items operands
    if parameters.length = es.length then bindEach level caller frame parameters es
    else level.raise (.operandCount parameters.length es.length)

def run (formals body : Value) (captured : TableId) (operands : Value) : EvalM Value := do
  let frame ← EvalM.allocate .empty
  bind level caller frame formals operands
  level.evaluateBody ((caller.push captured).push frame) (← level.items body)

end Closure

end MiniScheme
