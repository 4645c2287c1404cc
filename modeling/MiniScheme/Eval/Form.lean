import MiniScheme.Eval.Closure

/-!
# Special forms

A special form receives its operands unevaluated and decides which of them to evaluate.

## Main definitions

* `Form.run`: a call of a form.
-/

namespace MiniScheme.Form

variable (level : Level) (env : Env)

/-- `(define name value)` binds in the root, wherever it stands, and yields the value. -/
def runDefine (operands : Value) : EvalM Value := do
  match ← level.items operands with
  | [.symbol x, e] =>
    let v ← level.evaluate env e
    EvalM.defineGlobal env x v
    return v
  | [target, _] => level.raise (.defineTarget target)
  | _ => level.raise .defineCount

/-- `(set! name value)` changes the nearest binding of the name and yields the value. -/
def runAssign (operands : Value) : EvalM Value := do
  match ← level.items operands with
  | [.symbol x, e] =>
    let v ← level.evaluate env e
    EvalM.assign env x v
    return v
  | [target, _] => level.raise (.assignTarget target)
  | _ => level.raise .assignCount

def condition (e : Value) : EvalM Bool := do
  match ← level.evaluate env e with
  | .boolean b => return b
  | v => level.raise (.branchCondition v)

/-- `(if condition then else)`; a missing last part yields the empty list. -/
def runBranch (operands : Value) : EvalM Value := do
  match ← level.items operands with
  | [e, consequent] => if ← condition level env e then level.evaluate env consequent else pure .nil
  | [e, consequent, alternative] =>
    if ← condition level env e then level.evaluate env consequent
    else level.evaluate env alternative
  | _ => level.raise .branchCount

/-- `(lambda parameters body ...)` captures what is visible where it is evaluated. -/
def runLambda : (operands : Value) → EvalM Value
  | .pair formals body => do
    level.lift formals.checkFormals
    let _ ← level.items body
    return .closure formals body (← EvalM.capture env)
  | _ => level.raise .lambdaCount

/-- Evaluates initialisers in the environment around a `let` from left to right and binds each
before the next one is evaluated. -/
def bindInitialisers (frame : TableId) : (entries : List Value) → EvalM Unit
  | [] => pure ()
  | entry :: entries => do
    match ← level.items entry with
    | [.symbol x, e] =>
      let v ← level.evaluate env e
      EvalM.define frame x v
      bindInitialisers frame entries
    | [name, _] => level.raise (.bindingName name)
    | _ => level.raise (.bindingShape entry)

/-- `(let ((name initialiser) ...) body ...)` evaluates its body in a fresh scope. -/
def runBinding : (operands : Value) → EvalM Value
  | .pair entries body => do
    let frame ← EvalM.allocate .empty
    bindInitialisers level env frame (← level.items entries)
    level.evaluateBody (env.push frame) (← level.items body)
  | _ => level.raise .bindingCount

/-- Whether a test value chooses its clause. -/
def fires (v : Value) : Bool := v = .elseMarker || v = .boolean true

/-- Tries clauses in order. The first whose test fires yields the value of its body, and the value
of its test if it has no body. -/
def tryClauses : (clauses : List Value) → EvalM Value
  | [] => pure .nil
  | clause :: clauses => do
    match ← level.items clause with
    | [] => level.raise .clauseWithoutTest
    | test :: body =>
      let v ← level.evaluate env test
      if fires v then
        if body.isEmpty then return v else level.evaluateBody env body
      else tryClauses clauses

/-- `(cond (test body ...) ...)`. -/
def runCond (operands : Value) : EvalM Value := do
  tryClauses level env (← level.items operands)

/-- The value of the last expression, or false as soon as an expression yields it. -/
def allTrue (last : Value) : List Value → EvalM Value
  | [] => pure last
  | e :: es => do
    let v ← level.evaluate env e
    if v = .boolean false then return v else allTrue v es

/-- `(and e ...)`. -/
def runConjunction (operands : Value) : EvalM Value := do
  allTrue level env (.boolean true) (← level.items operands)

/-- The first value that is not false. -/
def anyTrue : List Value → EvalM Value
  | [] => pure (.boolean false)
  | e :: es => do
    let v ← level.evaluate env e
    if v = .boolean false then anyTrue es else return v

/-- `(or e ...)`. -/
def runDisjunction (operands : Value) : EvalM Value := do
  anyTrue level env (← level.items operands)

/-- `(quote e)` yields its operand as it stands. -/
def runQuote (operands : Value) : EvalM Value := do
  match ← level.items operands with
  | [e] => return e
  | _ => level.raise .quoteCount

def run : Form → (operands : Value) → EvalM Value
  | define => runDefine level env
  | branch => runBranch level env
  | lambda => runLambda level env
  | binding => runBinding level env
  | cond => runCond level env
  | conjunction => runConjunction level env
  | disjunction => runDisjunction level env
  | quote => runQuote level
  | assign => runAssign level env

end MiniScheme.Form
