import MiniScheme.Proofs.Eval.Discipline

/-!
# Parameters

Parameters pass the check of a lambda expression just if they are one symbol or a proper chain of
symbols. Binding operands to such parameters comes down to binding names.

## Main definitions

* `Formals`: parameters by their names.
* `Formals.bind`: binding operands to them.

## Main statements

* `Value.checkFormals_eq_ok_iff`: the parameters that pass the check.
* `Formals.bind_toValue`: a closure binds its operands in this way.
-/

namespace MiniScheme

/-- Parameters that are not one symbol are checked for the first item that is none. -/
theorem Value.checkFormals_eq {v : Value} (h : ∀ x, v ≠ .symbol x) :
    v.checkFormals = v.properItems >>= fun vs =>
      (vs.find? (!Value.checkFormals.isSymbol ·)).elim (.ok ()) (.error <| .lambdaParameter ·) := by
  rw [Value.checkFormals.eq_2 v h]
  congr 1
  funext vs
  cases vs.find? (!Value.checkFormals.isSymbol ·) <;> rfl

theorem Value.checkFormals_of_properItems {v : Value} {vs : List Value}
    (h : v.properItems = .ok vs) :
    v.checkFormals = (vs.find? (!checkFormals.isSymbol ·)).elim (.ok ())
      (.error <| .lambdaParameter ·) := by
  rw [checkFormals_eq (by rintro x rfl; cases h), h]
  rfl

theorem Value.checkFormals_of_improper {v : Value} {f : Fault} (h : v.properItems = .error f)
    (hsymbol : ∀ x, v ≠ .symbol x) : v.checkFormals = .error f := by
  rw [checkFormals_eq hsymbol, h]
  rfl

namespace Closure

variable {level : Level} {caller : Env} {frame : TableId} {formals : Value}

/-- Binding operands to a chain of parameters. -/
theorem bind_of_properItems {parameters : List Value}
    (h : formals.properItems = .ok parameters) (operands : Value) :
    bind level caller frame formals operands =
      level.items operands >>= fun es =>
        if parameters.length = es.length then bindEach level caller frame parameters es
        else level.raise (.operandCount parameters.length es.length) := by
  cases formals with
  | symbol x => cases h
  | _ =>
    simp only [bind, Level.items, h]
    rfl

theorem bind_of_improper {f : Fault} (h : formals.properItems = .error f)
    (hsymbol : ∀ x, formals ≠ .symbol x) (operands : Value) :
    bind level caller frame formals operands = level.raise f := by
  cases formals with
  | symbol x => exact (hsymbol x rfl).elim
  | _ =>
    simp only [bind, Level.items, h]
    rfl

end Closure

/-- Parameters: one name that takes the operands as they stand, or a name for each operand. -/
inductive Formals where
  | whole (x : String)
  | each (xs : List String)

namespace Formals

def toValue : Formals → Value
  | whole x => .symbol x
  | each xs => .chain (xs.map .symbol) .nil

/-- Binds operands to names one after the other, each before the next operand is evaluated. -/
def bindEach (level : Level) (caller : Env) (frame : TableId) :
    (xs : List String) → (operands : List Value) → EvalM Unit
  | x :: xs, e :: es => do
    let v ← level.evaluate caller e
    level.report (.binding (.symbol x) v)
    EvalM.define frame x v
    bindEach level caller frame xs es
  | _, _ => pure ()

def bind (level : Level) (caller : Env) (frame : TableId) (operands : Value) :
    Formals → EvalM Unit
  | whole x => do
    level.report (.bindingOperands x operands)
    EvalM.define frame x operands
  | each xs => do
    let es ← level.items operands
    if xs.length = es.length then bindEach level caller frame xs es
    else level.raise (.operandCount xs.length es.length)

variable {level : Level} {caller : Env} {frame : TableId}

theorem properItems_each (xs : List String) :
    (each xs).toValue.properItems = .ok (xs.map .symbol) := by
  rw [toValue, Value.properItems, Value.items_chain_nil]
  rfl

theorem bindEach_eq (xs : List String) (es : List Value) :
    Closure.bindEach level caller frame (xs.map .symbol) es =
      bindEach level caller frame xs es := by
  induction xs generalizing es with
  | nil => rfl
  | cons x xs ih =>
    cases es with
    | nil => rfl
    | cons e es =>
      simp only [List.map_cons, Closure.bindEach, bindEach, Closure.bindParameter, ih]

/-- A closure binds its operands to the names of its parameters. -/
theorem bind_toValue (formals : Formals) (operands : Value) :
    Closure.bind level caller frame formals.toValue operands =
      formals.bind level caller frame operands := by
  cases formals with
  | whole x => rfl
  | each xs =>
    rw [Closure.bind_of_properItems (properItems_each xs)]
    simp only [bind, bindEach_eq, List.length_map]

theorem checkFormals_toValue (formals : Formals) : formals.toValue.checkFormals = .ok () := by
  cases formals with
  | whole x => rfl
  | each xs =>
    have hfind : (xs.map Value.symbol).find? (!Value.checkFormals.isSymbol ·) = none := by
      simp [List.find?_eq_none, Value.checkFormals.isSymbol]
    rw [Value.checkFormals_of_properItems (properItems_each xs), hfind]
    rfl

end Formals

namespace Value

theorem exists_map_symbol {vs : List Value}
    (h : vs.find? (!Value.checkFormals.isSymbol ·) = none) :
    ∃ xs : List String, vs = xs.map .symbol := by
  induction vs with
  | nil => exact ⟨[], rfl⟩
  | cons v vs ih =>
    cases v with
    | symbol x =>
      obtain ⟨xs, rfl⟩ := ih h
      exact ⟨x :: xs, rfl⟩
    | _ => cases h

/-- The parameters that pass the check are one symbol or a proper chain of symbols. -/
theorem checkFormals_eq_ok_iff {v : Value} :
    v.checkFormals = .ok () ↔ ∃ formals : Formals, v = formals.toValue := by
  refine ⟨fun h => ?_, fun ⟨formals, hv⟩ => hv ▸ formals.checkFormals_toValue⟩
  by_cases hsymbol : ∃ x, v = .symbol x
  · obtain ⟨x, rfl⟩ := hsymbol
    exact ⟨.whole x, rfl⟩
  · cases hitems : v.properItems with
    | error f =>
      rw [checkFormals_of_improper hitems (not_exists.mp hsymbol)] at h
      cases h
    | ok vs =>
      rw [checkFormals_of_properItems hitems] at h
      cases hfind : vs.find? (!checkFormals.isSymbol ·) with
      | some u => rw [hfind] at h; cases h
      | none =>
        obtain ⟨xs, rfl⟩ := exists_map_symbol hfind
        exact ⟨.each xs, chain_of_properItems hitems⟩

end Value

end MiniScheme
