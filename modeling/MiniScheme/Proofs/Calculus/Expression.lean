import Mathlib.Logic.Function.Basic
import MiniScheme.Builtins
import MiniScheme.Fault
import MiniScheme.Reader.Source

/-!
# A calculus of pure expressions

Expressions that compute with integers and booleans alone: literals, names that a `let` around them
binds, calls of the operators, `if`, `and`, `or` and `let`. What such an expression means is said
here without a store, without tables and without a limit: scopes are functions, and an expression
has a datum or makes a mistake.

## Main definitions

* `Calculus.Expr`, `Calculus.Expr.form`: the expressions, and the values that they are as programs.
* `Calculus.Expr.Legal`: the expressions that name nothing but what is bound around them.
* `Calculus.Operator.apply`, `Calculus.Expr.meaning`: what operators and expressions compute.
-/

namespace MiniScheme.Calculus

/-! ## Expressions -/

inductive Operator where
  | add
  | subtract
  | multiply
  | divide
  | modulo
  | greater
  | less
  | equal
  | not
  deriving DecidableEq, Repr

def Operator.native : Operator → Native
  | add => .add
  | subtract => .subtract
  | multiply => .multiply
  | divide => .divide
  | modulo => .modulo
  | greater => .greater
  | less => .less
  | equal => .equal
  | not => .not

inductive Expr where
  | integer (n : Int)
  | boolean (b : Bool)
  | name (x : String)
  | call (op : Operator) (es : List Expr)
  /-- A branch without a last part. -/
  | guard (condition consequent : Expr)
  | branch (condition consequent alternative : Expr)
  | conjunction (es : List Expr)
  | disjunction (es : List Expr)
  | binding (bs : List (String × Expr)) (body : Expr)

def phrase (x : String) (operands : List Value) : Value := .chain (.symbol x :: operands) .nil

namespace Expr

mutual

def form : Expr → Value
  | integer n => .integer n
  | boolean b => .boolean b
  | name x => .symbol x
  | call op es => phrase op.native.name (forms es)
  | guard condition consequent => phrase Form.branch.name [condition.form, consequent.form]
  | branch condition consequent alternative =>
    phrase Form.branch.name [condition.form, consequent.form, alternative.form]
  | conjunction es => phrase Form.conjunction.name (forms es)
  | disjunction es => phrase Form.disjunction.name (forms es)
  | binding bs body => phrase Form.binding.name [.chain (entries bs) .nil, body.form]

def forms : List Expr → List Value
  | [] => []
  | e :: es => e.form :: forms es

def entries : List (String × Expr) → List Value
  | [] => []
  | (x, e) :: bs => .chain [.symbol x, e.form] .nil :: entries bs

end

theorem mem_forms {v : Value} {es : List Expr} : v ∈ forms es ↔ ∃ e ∈ es, e.form = v := by
  induction es with
  | nil => simp [forms]
  | cons e es ih => simp [forms, ih, eq_comm]

theorem mem_entries {v : Value} {bs : List (String × Expr)} :
    v ∈ entries bs ↔ ∃ b ∈ bs, .chain [.symbol b.1, b.2.form] .nil = v := by
  induction bs with
  | nil => simp [entries]
  | cons b bs ih =>
    rw [entries, List.mem_cons, ih, eq_comm]
    simp only [List.mem_cons, exists_eq_or_imp]

/-- A name that a `let` may bind: it is one token, and it hides neither the dot nor a built-in. -/
def IsName (x : String) : Prop :=
  Source.tokens x = .ok [.symbol x, .endOfLine] ∧ x ≠ "." ∧ x ∉ builtinNames

/-- The expressions that mean something where some names are bound: their integers have few enough
digits to be written down, and their names are bound there or by a `let` on the way. -/
inductive Legal : (names : List String) → Expr → Prop where
  | integer {names : List String} {n : Int} (hn : Text.isWritable n = true) :
      Legal names (integer n)
  | boolean {names : List String} (b : Bool) : Legal names (boolean b)
  | name {names : List String} {x : String} (hx : x ∈ names) : Legal names (name x)
  | call {names : List String} (op : Operator) {es : List Expr}
      (hes : ∀ e ∈ es, Legal names e) : Legal names (call op es)
  | guard {names : List String} {condition consequent : Expr} (hcondition : Legal names condition)
      (hconsequent : Legal names consequent) : Legal names (guard condition consequent)
  | branch {names : List String} {condition consequent alternative : Expr}
      (hcondition : Legal names condition) (hconsequent : Legal names consequent)
      (halternative : Legal names alternative) :
      Legal names (branch condition consequent alternative)
  | conjunction {names : List String} {es : List Expr} (hes : ∀ e ∈ es, Legal names e) :
      Legal names (conjunction es)
  | disjunction {names : List String} {es : List Expr} (hes : ∀ e ∈ es, Legal names e) :
      Legal names (disjunction es)
  | binding {names : List String} {bs : List (String × Expr)} {body : Expr}
      (hnames : ∀ b ∈ bs, IsName b.1) (hbs : ∀ b ∈ bs, Legal names b.2)
      (hbody : Legal (bs.map Prod.fst ++ names) body) : Legal names (binding bs body)

end Expr

/-! ## What operators compute -/

inductive Datum where
  | integer (n : Int)
  | boolean (b : Bool)
  /-- What a branch yields whose last part is missing. -/
  | nothing
  deriving DecidableEq, Repr

namespace Datum

def value : Datum → Value
  | integer n => .integer n
  | boolean b => .boolean b
  | nothing => .nil

def isWritable : Datum → Bool
  | integer n => Text.isWritable n
  | _ => true

end Datum

inductive Mistake where
  | unbound (x : String)
  /-- The condition of a branch is something else than a boolean. -/
  | condition (d : Datum)
  /-- An operand that has to be an integer is none. -/
  | operand
  | count
  | zeroDivisor
  deriving DecidableEq, Repr

def Mistake.kind : Mistake → Fault.Kind
  | unbound _ => .unbound
  | condition _ | operand => .type
  | count => .count
  | zeroDivisor => .zeroDivisor

namespace Datum

def whole : Datum → Except Mistake Int
  | integer n => .ok n
  | _ => .error .operand

def wholes : List Datum → Except Mistake (List Int)
  | [] => .ok []
  | d :: ds => do
    let n ← d.whole
    return n :: (← wholes ds)

def truth : Datum → Except Mistake Bool
  | boolean b => .ok b
  | d => .error (.condition d)

end Datum

def total : List Int → Int
  | [] => 0
  | n :: ns => n + total ns

def product : List Int → Int
  | [] => 1
  | n :: ns => n * product ns

/-- What an operator makes of its operands. A division goes through the divisors in turn and rounds
toward zero; a remainder has the sign of the divisor. -/
def Operator.apply : Operator → List Datum → Except Mistake Datum
  | add, ds => do return .integer (total (← Datum.wholes ds))
  | subtract, ds => do
    match ← Datum.wholes ds with
    | [] => .error .count
    | n :: ns => return .integer (n - total ns)
  | multiply, ds => do return .integer (product (← Datum.wholes ds))
  | divide, ds => do
    match ← Datum.wholes ds with
    | [] => .error .count
    | n :: ns => if 0 ∈ ns then .error .zeroDivisor else return .integer (ns.foldl Int.tdiv n)
  | modulo, [a, b] => do
    let n ← a.whole
    let d ← b.whole
    if d = 0 then .error .zeroDivisor else return .integer (n.fmod d)
  | greater, [a, b] => do
    let m ← a.whole
    let n ← b.whole
    return .boolean (m > n)
  | less, [a, b] => do
    let m ← a.whole
    let n ← b.whole
    return .boolean (m < n)
  | equal, [a, b] => .ok (.boolean (a = b))
  | not, [a] => .ok (.boolean (a = .boolean false))
  | _, _ => .error .count

/-! ## What expressions mean -/

abbrev Scope := String → Option Datum

namespace Expr

mutual

/-- What an expression means in a scope. Operands are taken from left to right. -/
def meaning (scope : Scope) : Expr → Except Mistake Datum
  | integer n => .ok (.integer n)
  | boolean b => .ok (.boolean b)
  | name x =>
    match scope x with
    | some d => .ok d
    | none => .error (.unbound x)
  | call op es => do op.apply (← meanings scope es)
  | guard condition consequent => do
    if ← (← meaning scope condition).truth then meaning scope consequent else return .nothing
  | branch condition consequent alternative => do
    if ← (← meaning scope condition).truth then meaning scope consequent
    else meaning scope alternative
  | conjunction es => lastTrue scope (.boolean true) es
  | disjunction es => firstTrue scope es
  | binding bs body => do meaning (← extended scope scope bs) body

def meanings (scope : Scope) : List Expr → Except Mistake (List Datum)
  | [] => .ok []
  | e :: es => do
    let d ← meaning scope e
    return d :: (← meanings scope es)

/-- The meaning of the last expression, unless one before it is false. -/
def lastTrue (scope : Scope) (last : Datum) : List Expr → Except Mistake Datum
  | [] => .ok last
  | e :: es => do
    let d ← meaning scope e
    if d = .boolean false then return d else lastTrue scope d es

/-- The meaning of the first expression that is not false. -/
def firstTrue (scope : Scope) : List Expr → Except Mistake Datum
  | [] => .ok (.boolean false)
  | e :: es => do
    let d ← meaning scope e
    if d = .boolean false then firstTrue scope es else return d

/-- A scope that is extended by bindings, whose initialisers mean what they mean in the scope
around them. The last binding of a name counts. -/
def extended (scope inner : Scope) : List (String × Expr) → Except Mistake Scope
  | [] => .ok inner
  | (x, e) :: bs => do
    let d ← meaning scope e
    extended scope (Function.update inner x (some d)) bs

end

end Expr

end MiniScheme.Calculus
