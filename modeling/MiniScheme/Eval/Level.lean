import MiniScheme.Store
import MiniScheme.Fault
import MiniScheme.Event

/-!
# Levels of evaluation

Evaluation changes the store, reports events and may end in a fault; what it changed before the
fault stays changed. Each rule of evaluation is written over a *level*: it is given evaluation with
one unit of depth less, and it decides what to evaluate in which environment.

## Main definitions

* `EvalM`: computations that may fault.
* `Level`: evaluation one level down.
-/

namespace MiniScheme

/-- What evaluation changes: the store, and the events so far, latest first. -/
structure EvalState where
  store : Store
  events : List Event

instance : Inhabited EvalState := ⟨⟨.empty, []⟩⟩

abbrev EvalM := EStateM Fault EvalState

namespace EvalM

def allocate (t : Table) : EvalM TableId :=
  modifyGet fun s =>
    let (id, store) := s.store.allocate t
    (id, { s with store })

def define (id : TableId) (x : String) (v : Value) : EvalM Unit :=
  modify fun s => { s with store := s.store.define id x v }

def defineGlobal (env : Env) (x : String) (v : Value) : EvalM Unit :=
  modify fun s => { s with store := s.store.defineGlobal env x v }

def lookup (env : Env) (x : String) : EvalM Value := do
  match (← get).store.get? env x with
  | some v => return v
  | none => throw (.unresolved x)

def assign (env : Env) (x : String) (v : Value) : EvalM Unit := do
  match (← get).store.find? env x with
  | some id => define id x v
  | none => throw (.setUnbound x)

/-- Puts the bindings that are visible in an environment into the store as one table. -/
def capture (env : Env) : EvalM TableId := do
  allocate ((← get).store.collapse env)

end EvalM

/-- What a rule of evaluation works with: whether events are reported, how much depth is left, and
how a value is evaluated with that depth in front of some operands. -/
structure Level where
  traced : Bool
  depth : Nat
  run : Env → Value → (operands : Value) → EvalM Value

namespace Level

variable (level : Level)

def evaluate (env : Env) (e : Value) : EvalM Value := level.run env e .nil

/-- Faults, if the fault can be worded with the depth that is left. -/
def raise {α : Type} (f : Fault) : EvalM α := throw (f.worded level.depth)

/-- Takes over the answer of a computation that does not touch the store. -/
def lift {α : Type} : Except Fault α → EvalM α
  | .ok a => pure a
  | .error f => level.raise f

/-- Reports an event. The log handler that is meant words every event at once and raises if it
cannot, as a handler that collects the messages of a test does: such an event is a fault. The
standard handlers swallow the failure to write an integer with too many digits; under them the
evaluation goes on as if it were not traced. -/
def report (e : Event) : EvalM Unit :=
  if level.traced then
    match e.obstacle? level.depth with
    | some obstacle => throw (.ofWriteError obstacle)
    | none => modify fun s => { s with events := e :: s.events }
  else pure ()

def items (v : Value) : EvalM (List Value) := level.lift v.properItems

def apply (env : Env) (f operands : Value) : EvalM Value :=
  if f.isProcedure then level.run env f operands else level.raise (.notAProcedure f)

def evaluateAll (env : Env) : List Value → EvalM (List Value)
  | [] => pure []
  | e :: es => do
    let v ← level.evaluate env e
    let vs ← evaluateAll env es
    return v :: vs

/-- Evaluates expressions from left to right for the value of the last one; there need not be
any. -/
def evaluateBody (env : Env) : List Value → EvalM Value
  | [] => pure .nil
  | [e] => level.evaluate env e
  | e :: es => do
    let _ ← level.evaluate env e
    evaluateBody env es

end Level

end MiniScheme
