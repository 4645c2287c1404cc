import MiniScheme.Eval.Form
import MiniScheme.Eval.Native

/-!
# Evaluation

Every value is an expression. Literals, the empty list and the else marker stand for themselves, a
symbol for its binding and a quoted value for what it quotes. A pair calls its left half on its
right half. A procedure, evaluated in front of operands, is called on them.

Evaluation is nested at most as deep as a limit allows.

## Main definitions

* `step`: one rule of evaluation over a level.
* `eval`: evaluation with a depth of nesting.
-/

namespace MiniScheme

/-- Evaluates a value in front of operands. A left half that is a procedure already is called
without being evaluated. -/
def step (level : Level) (env : Env) (v operands : Value) : EvalM Value :=
  match v with
  | .nil | .integer _ | .boolean _ | .string _ | .elseMarker => pure v
  | .symbol x => EvalM.lookup env x
  | .quoted e => pure e
  | .pair left right => do
    level.report (.applying left right)
    let f ← if left.isProcedure then pure left else level.evaluate env left
    level.apply env f right
  | .form f _ => f.run level env operands
  | .native p _ => p.run level env operands
  | .closure formals body captured => Closure.run level env formals body captured operands

/-- Evaluates a value in front of operands, nested at most as deep as given. -/
def eval (traced : Bool) : (depth : Nat) → Env → (v operands : Value) → EvalM Value
  | 0, _, _, _ => throw .tooDeep
  | depth + 1, env, v, operands => step ⟨traced, depth, eval traced depth⟩ env v operands

def Level.ofDepth (traced : Bool) (depth : Nat) : Level := ⟨traced, depth, eval traced depth⟩

@[simp] theorem eval_zero (traced : Bool) (env : Env) (v operands : Value) :
    eval traced 0 env v operands = throw .tooDeep := rfl

theorem eval_succ (traced : Bool) (depth : Nat) (env : Env) (v operands : Value) :
    eval traced (depth + 1) env v operands =
      step (Level.ofDepth traced depth) env v operands := rfl

end MiniScheme
