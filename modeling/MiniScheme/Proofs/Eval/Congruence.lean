import MiniScheme.Proofs.Eval.Formals

/-!
# Congruences of computations

The rules of evaluation are written over a level. A relation between computations that is kept when
one computation follows another therefore passes from two levels to every rule over them. This is
shown rule by rule, for whatever relation; what has to be said about a relation itself is how it
deals with computations that do not depend on the level, and with the faults and events of the two
levels.

Two rules are left to each relation: looking a name up, and the call of a closure, in so far as its
parameters need not be symbols. The faults that only these two can raise are not *ordinary*.

## Main definitions

* `Fault.isOrdinary`: the faults that all the other rules raise.
* `Congruence`: the relations.
* `Congruence.Linked`: two levels that agree.

## Main statements

* `Congruence.Linked.step`: one rule.
* `Congruence.Linked.call`: the call of a closure.
* `Congruence.Linked.evaluateForms`: expressions in turn.
-/

namespace MiniScheme

/-- The faults that the rules of evaluation raise, apart from those of a name without a binding and
of a table that is asked to bind something else than a symbol. -/
def Fault.isOrdinary : Fault → Bool
  | unresolved _ | bindNonSymbol _ | setNonSymbol _ | lookupUnbound _ | missingHalf => false
  | _ => true

def EvalM.IsOrdinary {α : Type} (x : EvalM α) : Prop :=
  ∀ s f s', x s = .error f s' → f.isOrdinary = true

namespace Value

theorem isOrdinary_of_properItems {v : Value} {f : Fault} (h : v.properItems = .error f) :
    f.isOrdinary = true := by
  unfold properItems at h
  cases hv : v.items with
  | ok vs => rw [hv] at h; cases h
  | error last => rw [hv] at h; cases h; rfl

theorem isOrdinary_of_checkFormals {formals : Value} {f : Fault}
    (h : formals.checkFormals = .error f) : f.isOrdinary = true := by
  by_cases hsymbol : ∃ x, formals = .symbol x
  · obtain ⟨x, rfl⟩ := hsymbol
    cases h
  · cases hitems : formals.properItems with
    | error g =>
      rw [checkFormals_of_improper hitems (not_exists.mp hsymbol)] at h
      cases h
      exact isOrdinary_of_properItems hitems
    | ok vs =>
      rw [checkFormals_of_properItems hitems] at h
      cases hfind : vs.find? (!checkFormals.isSymbol ·) with
      | none => rw [hfind] at h; cases h
      | some v => rw [hfind] at h; cases h; rfl

end Value

/-- A relation between computations that passes from two computations to what follows them. -/
structure Congruence where
  Rel : {α : Type} → (x y : EvalM α) → Prop
  refl : ∀ {α : Type} {x : EvalM α}, x.IsOrdinary → Rel x x
  bind : ∀ {α β : Type} {x y : EvalM α} {k l : α → EvalM β}, Rel x y →
    (∀ v, Rel (k v) (l v)) → Rel (x >>= k) (y >>= l)

namespace Congruence

variable (C : Congruence)

theorem pure {α : Type} (v : α) : C.Rel (pure v : EvalM α) (pure v) := by
  refine C.refl fun s f s' h => ?_
  cases h

/-- A change of the store that cannot fail. -/
theorem modifyGet {α : Type} (change : EvalState → α × EvalState) :
    C.Rel (modifyGet change : EvalM α) (modifyGet change) := by
  refine C.refl fun s f s' h => ?_
  cases h

theorem assign (env : Env) (x : String) (v : Value) :
    C.Rel (EvalM.assign env x v) (EvalM.assign env x v) := by
  refine C.refl fun s f s' h => ?_
  rw [EvalM.assign_eq] at h
  cases hfind : s.store.find? env x with
  | some id => rw [hfind] at h; cases h
  | none => rw [hfind] at h; cases h; rfl

variable {C}

/-- Two levels that agree on what they evaluate, and on how they answer, fault and report. -/
structure Linked (C : Congruence) (level₁ level₂ : Level) : Prop where
  run : ∀ (env : Env) (v operands : Value),
    C.Rel (level₁.run env v operands) (level₂.run env v operands)
  raise : ∀ {α : Type} {f : Fault}, f.isOrdinary = true →
    C.Rel (level₁.raise f : EvalM α) (level₂.raise f)
  report : ∀ e : Event, C.Rel (level₁.report e) (level₂.report e)
  compute : ∀ (p : Native) (args : List Value),
    C.Rel (level₁.lift (p.compute level₁.depth args)) (level₂.lift (p.compute level₂.depth args))

namespace Linked

variable {level₁ level₂ : Level} (h : C.Linked level₁ level₂) (env : Env)
include h

/-! ## Levels -/

theorem lift {α : Type} {r : Except Fault α} (hr : ∀ f, r = .error f → f.isOrdinary = true) :
    C.Rel (level₁.lift r) (level₂.lift r) := by
  cases r with
  | ok v => exact C.pure v
  | error f => exact h.raise (hr f rfl)

theorem items (v : Value) : C.Rel (level₁.items v) (level₂.items v) :=
  h.lift fun _ hitems => Value.isOrdinary_of_properItems hitems

theorem evaluate (e : Value) : C.Rel (level₁.evaluate env e) (level₂.evaluate env e) :=
  h.run env e .nil

theorem apply (f operands : Value) :
    C.Rel (level₁.apply env f operands) (level₂.apply env f operands) := by
  unfold Level.apply
  split
  · exact h.run env f operands
  · exact h.raise rfl

theorem evaluateAll (es : List Value) :
    C.Rel (level₁.evaluateAll env es) (level₂.evaluateAll env es) := by
  induction es with
  | nil => exact C.pure []
  | cons e es ih =>
    refine C.bind (h.evaluate env e) fun v => ?_
    refine C.bind ih fun vs => ?_
    exact C.pure (v :: vs)

theorem evaluateBody (es : List Value) :
    C.Rel (level₁.evaluateBody env es) (level₂.evaluateBody env es) := by
  induction es with
  | nil => exact C.pure _
  | cons e es ih =>
    cases es with
    | nil => exact h.evaluate env e
    | cons e' es => exact C.bind (h.evaluate env e) fun _ => ih

/-! ## Closures -/

/-- Binding operands to parameters that are bound alike. -/
theorem bindEach {frame : TableId} {parameters : List Value}
    (hbind : ∀ parameter ∈ parameters, ∀ v, C.Rel (Closure.bindParameter level₁ frame parameter v)
      (Closure.bindParameter level₂ frame parameter v)) (es : List Value) :
    C.Rel (Closure.bindEach level₁ env frame parameters es)
      (Closure.bindEach level₂ env frame parameters es) := by
  induction parameters generalizing es with
  | nil => exact C.pure ()
  | cons parameter parameters ih =>
    cases es with
    | nil => exact C.pure ()
    | cons e es =>
      obtain ⟨hparameter, hbind⟩ := List.forall_mem_cons.mp hbind
      refine C.bind (h.evaluate env e) fun v => ?_
      refine C.bind (h.report _) fun _ => ?_
      exact C.bind (hparameter v) fun _ => ih hbind es

theorem bind {frame : TableId} {formals : Value}
    (hbind : ∀ parameters, formals.properItems = .ok parameters → ∀ parameter ∈ parameters, ∀ v,
      C.Rel (Closure.bindParameter level₁ frame parameter v)
        (Closure.bindParameter level₂ frame parameter v)) (operands : Value) :
    C.Rel (Closure.bind level₁ env frame formals operands)
      (Closure.bind level₂ env frame formals operands) := by
  cases hformals : formals.properItems with
  | ok parameters =>
    rw [Closure.bind_of_properItems hformals, Closure.bind_of_properItems hformals]
    refine C.bind (h.items operands) fun es => ?_
    split
    · exact h.bindEach env (hbind parameters hformals) es
    · exact h.raise rfl
  | error f =>
    cases formals with
    | symbol x =>
      refine C.bind (h.report _) fun _ => ?_
      exact C.modifyGet _
    | _ =>
      rw [Closure.bind_of_improper hformals (by simp), Closure.bind_of_improper hformals (by simp)]
      exact h.raise (Value.isOrdinary_of_properItems hformals)

/-- The call of a closure whose parameters are bound alike. -/
theorem call {formals : Value}
    (hbind : ∀ parameters, formals.properItems = .ok parameters → ∀ parameter ∈ parameters,
      ∀ frame v, C.Rel (Closure.bindParameter level₁ frame parameter v)
        (Closure.bindParameter level₂ frame parameter v)) (body : Value) (captured : TableId)
    (operands : Value) :
    C.Rel (Closure.run level₁ env formals body captured operands)
      (Closure.run level₂ env formals body captured operands) := by
  refine C.bind (C.modifyGet _) fun frame => ?_
  refine C.bind (h.bind env (fun ps hps p hp => hbind ps hps p hp frame) operands) fun _ => ?_
  exact C.bind (h.items body) fun es => h.evaluateBody _ es

/-! ## Forms -/

theorem runDefine (operands : Value) :
    C.Rel (Form.runDefine level₁ env operands) (Form.runDefine level₂ env operands) := by
  refine C.bind (h.items operands) fun es => ?_
  rcases es with _ | ⟨target, _ | ⟨e, _ | _⟩⟩
  · exact h.raise rfl
  · cases target <;> exact h.raise rfl
  · cases target with
    | symbol x =>
      refine C.bind (h.evaluate env e) fun v => ?_
      exact C.bind (C.modifyGet _) fun _ => C.pure v
    | _ => exact h.raise rfl
  · cases target <;> exact h.raise rfl

theorem runAssign (operands : Value) :
    C.Rel (Form.runAssign level₁ env operands) (Form.runAssign level₂ env operands) := by
  refine C.bind (h.items operands) fun es => ?_
  rcases es with _ | ⟨target, _ | ⟨e, _ | _⟩⟩
  · exact h.raise rfl
  · cases target <;> exact h.raise rfl
  · cases target with
    | symbol x =>
      refine C.bind (h.evaluate env e) fun v => ?_
      exact C.bind (C.assign env x v) fun _ => C.pure v
    | _ => exact h.raise rfl
  · cases target <;> exact h.raise rfl

theorem condition (e : Value) :
    C.Rel (Form.condition level₁ env e) (Form.condition level₂ env e) := by
  refine C.bind (h.evaluate env e) fun v => ?_
  cases v with
  | boolean answer => exact C.pure answer
  | _ => exact h.raise rfl

theorem runBranch (operands : Value) :
    C.Rel (Form.runBranch level₁ env operands) (Form.runBranch level₂ env operands) := by
  refine C.bind (h.items operands) fun es => ?_
  rcases es with _ | ⟨e, _ | ⟨consequent, _ | ⟨alternative, _ | _⟩⟩⟩
  · exact h.raise rfl
  · exact h.raise rfl
  · refine C.bind (h.condition env e) fun answer => ?_
    split
    · exact h.evaluate env consequent
    · exact C.pure _
  · refine C.bind (h.condition env e) fun answer => ?_
    split
    · exact h.evaluate env consequent
    · exact h.evaluate env alternative
  · exact h.raise rfl

theorem runLambda (operands : Value) :
    C.Rel (Form.runLambda level₁ env operands) (Form.runLambda level₂ env operands) := by
  cases operands with
  | pair formals body =>
    refine C.bind (h.lift fun _ hcheck => Value.isOrdinary_of_checkFormals hcheck) fun _ => ?_
    refine C.bind (h.items body) fun _ => ?_
    refine C.bind (C.bind ?_ fun s => C.modifyGet _) fun captured => C.pure _
    exact C.modifyGet fun s => (s, s)
  | _ => exact h.raise rfl

theorem bindInitialisers (frame : TableId) (entries : List Value) :
    C.Rel (Form.bindInitialisers level₁ env frame entries)
      (Form.bindInitialisers level₂ env frame entries) := by
  induction entries with
  | nil => exact C.pure ()
  | cons entry entries ih =>
    refine C.bind (h.items entry) fun es => ?_
    rcases es with _ | ⟨name, _ | ⟨e, _ | _⟩⟩
    · exact h.raise rfl
    · cases name <;> exact h.raise rfl
    · cases name with
      | symbol x =>
        refine C.bind (h.evaluate env e) fun v => ?_
        exact C.bind (C.modifyGet _) fun _ => ih
      | _ => exact h.raise rfl
    · cases name <;> exact h.raise rfl

theorem runBinding (operands : Value) :
    C.Rel (Form.runBinding level₁ env operands) (Form.runBinding level₂ env operands) := by
  cases operands with
  | pair entries body =>
    refine C.bind (C.modifyGet _) fun frame => ?_
    refine C.bind (h.items entries) fun es => ?_
    refine C.bind (h.bindInitialisers env frame es) fun _ => ?_
    exact C.bind (h.items body) fun forms => h.evaluateBody _ forms
  | _ => exact h.raise rfl

theorem tryClauses (clauses : List Value) :
    C.Rel (Form.tryClauses level₁ env clauses) (Form.tryClauses level₂ env clauses) := by
  induction clauses with
  | nil => exact C.pure _
  | cons clause clauses ih =>
    refine C.bind (h.items clause) fun es => ?_
    cases es with
    | nil => exact h.raise rfl
    | cons test body =>
      refine C.bind (h.evaluate env test) fun v => ?_
      split
      · split
        · exact C.pure v
        · exact h.evaluateBody env body
      · exact ih

theorem allTrue (last : Value) (es : List Value) :
    C.Rel (Form.allTrue level₁ env last es) (Form.allTrue level₂ env last es) := by
  induction es generalizing last with
  | nil => exact C.pure last
  | cons e es ih =>
    refine C.bind (h.evaluate env e) fun v => ?_
    split
    · exact C.pure v
    · exact ih v

theorem anyTrue (es : List Value) :
    C.Rel (Form.anyTrue level₁ env es) (Form.anyTrue level₂ env es) := by
  induction es with
  | nil => exact C.pure _
  | cons e es ih =>
    refine C.bind (h.evaluate env e) fun v => ?_
    split
    · exact ih
    · exact C.pure v

theorem runQuote (operands : Value) :
    C.Rel (Form.runQuote level₁ operands) (Form.runQuote level₂ operands) := by
  refine C.bind (h.items operands) fun es => ?_
  rcases es with _ | ⟨e, _ | _⟩
  · exact h.raise rfl
  · exact C.pure e
  · exact h.raise rfl

theorem runForm (f : Form) (operands : Value) :
    C.Rel (f.run level₁ env operands) (f.run level₂ env operands) := by
  cases f with
  | define => exact h.runDefine env operands
  | branch => exact h.runBranch env operands
  | lambda => exact h.runLambda env operands
  | binding => exact h.runBinding env operands
  | cond => exact C.bind (h.items operands) fun es => h.tryClauses env es
  | conjunction => exact C.bind (h.items operands) fun es => h.allTrue env _ es
  | disjunction => exact C.bind (h.items operands) fun es => h.anyTrue env es
  | quote => exact h.runQuote operands
  | assign => exact h.runAssign env operands

/-! ## One rule -/

theorem runNative (p : Native) (operands : Value) :
    C.Rel (p.run level₁ env operands) (p.run level₂ env operands) := by
  refine C.bind (h.items operands) fun es => ?_
  refine C.bind (h.evaluateAll env es) fun args => ?_
  split
  · exact h.apply env _ _
  · exact h.compute p args

/-- One rule of evaluation, but for names and for closures. -/
theorem step {v : Value} (operands : Value) (hsymbol : ∀ x, v ≠ .symbol x)
    (hclosure : ∀ formals body captured, v ≠ .closure formals body captured) :
    C.Rel (MiniScheme.step level₁ env v operands) (MiniScheme.step level₂ env v operands) := by
  cases v with
  | nil | integer | boolean | string | elseMarker => exact C.pure _
  | symbol x => exact (hsymbol x rfl).elim
  | quoted e => exact C.pure e
  | pair left right =>
    refine C.bind (h.report _) fun _ => ?_
    dsimp only
    split
    · exact C.bind (C.pure left) fun f => h.apply env f right
    · exact C.bind (h.evaluate env left) fun f => h.apply env f right
  | form f installation => exact h.runForm env f operands
  | native p installation => exact h.runNative env p operands
  | closure formals body captured => exact (hclosure formals body captured rfl).elim

theorem evaluateForms (last : Value) (es : List Value) :
    C.Rel (Session.evaluateForms level₁ env last es)
      (Session.evaluateForms level₂ env last es) := by
  induction es generalizing last with
  | nil => exact C.pure last
  | cons e es ih =>
    refine C.bind (h.report _) fun _ => ?_
    refine C.bind (h.evaluate env e) fun v => ?_
    exact C.bind (h.report _) fun _ => ih v

end Linked

end Congruence

end MiniScheme
