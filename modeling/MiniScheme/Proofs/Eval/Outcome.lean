import Mathlib.Data.List.Forall2
import MiniScheme.Proofs.Eval.Quiet

/-!
# Outcomes of single rules

What follows from an answer of a rule, and what is enough for one.

## Main definitions

* `Value.definition`: the definition of a closure.
* `Gives`: a computation has an answer and leaves a given store behind.

## Main statements

* `Form.runDefine_cases`, `Form.runAssign_ok`, `Form.runLambda_ok`: what a definition, an assignment
  and a lambda expression do.
* `Closure.run_of_bind`: the body of a closure, once its operands are bound.
* `eval_call_ok`, `eval_definition_ok`: a call by name, and the definition of a closure, that have
  an answer.
* `Gives.native`, `Gives.branch`, `Gives.call`: calls that have one.
-/

namespace MiniScheme

/-! ## From answers -/

theorem EvalM.ok_of_bind {α β : Type} {x : EvalM α} {k : α → EvalM β} {s s' : EvalState} {v : β}
    (h : (x >>= k) s = .ok v s') : ∃ u s₁, x s = .ok u s₁ ∧ k u s₁ = .ok v s' := by
  simp only [bind, EStateM.bind] at h
  cases hx : x s with
  | error f s₁ => simp [hx] at h
  | ok u s₁ => exact ⟨u, s₁, rfl, by simpa [hx] using h⟩

theorem EvalM.bind_of_ok {α β : Type} {x : EvalM α} {s s' : EvalState} {v : α}
    (h : x s = .ok v s') (k : α → EvalM β) : (x >>= k) s = k v s' := by
  simp only [bind, EStateM.bind, h]

theorem EvalM.bind_of_error {α β : Type} {x : EvalM α} {s s' : EvalState} {f : Fault}
    (h : x s = .error f s') (k : α → EvalM β) : (x >>= k) s = .error f s' := by
  simp only [bind, EStateM.bind, h]

theorem Level.store_of_report {level : Level} {e : Event} {s s' : EvalState} {u : Unit}
    (h : level.report e s = .ok u s') : s'.store = s.store := by
  have hstill := (Still.report level e s rfl).1
  rw [h] at hstill
  exact hstill

/-- A `define` evaluates at most its second operand, and binds nothing but a name in the root. -/
theorem Form.runDefine_cases (level : Level) (env : Env) (operands : Value) (s : EvalState) :
    (∃ f, Form.runDefine level env operands s = .error f s) ∨
      ∃ x e, operands.properItems = .ok [.symbol x, e] ∧
        ((∃ f s₁, level.evaluate env e s = .error f s₁ ∧
            Form.runDefine level env operands s = .error f s₁) ∨
          ∃ v s₁, level.evaluate env e s = .ok v s₁ ∧ Form.runDefine level env operands s =
            .ok v { s₁ with store := s₁.store.define env.root x v }) := by
  unfold Form.runDefine Level.items
  cases hitems : operands.properItems with
  | error f => exact .inl ⟨_, rfl⟩
  | ok es =>
    rcases es with _ | ⟨target, _ | ⟨e, _ | _⟩⟩
    · exact .inl ⟨_, rfl⟩
    · cases target <;> exact .inl ⟨_, rfl⟩
    · cases target with
      | symbol x =>
        refine .inr ⟨x, e, rfl, ?_⟩
        simp only [Level.lift, bind, EStateM.bind, pure, EStateM.pure]
        cases level.evaluate env e s with
        | error f s₁ => exact .inl ⟨f, s₁, rfl, rfl⟩
        | ok v s₁ => exact .inr ⟨v, s₁, rfl, rfl⟩
      | _ => exact .inl ⟨_, rfl⟩
    · cases target <;> exact .inl ⟨_, rfl⟩

/-- An assignment to a name that is bound. -/
theorem Form.runAssign_ok {level : Level} {env : Env} {operands e v : Value} {x : String}
    {id : TableId} {s s₁ : EvalState} (hitems : operands.properItems = .ok [.symbol x, e])
    (he : level.evaluate env e s = .ok v s₁) (hfind : s₁.store.find? env x = some id) :
    Form.runAssign level env operands s =
      .ok v { s₁ with store := s₁.store.define id x v } := by
  unfold Form.runAssign Level.items
  rw [hitems]
  simp only [Level.lift, bind, EStateM.bind, pure, EStateM.pure, he, EvalM.assign_eq, hfind]

/-- A lambda expression puts what is visible at the next place and yields a closure over it. -/
theorem Form.runLambda_ok {level : Level} {env : Env} {formals body v : Value} {s s' : EvalState}
    (h : Form.runLambda level env (.pair formals body) s = .ok v s') :
    v = .closure formals body s.store.tables.size ∧
      s' = { s with store := (s.store.allocate (s.store.collapse env)).2 } := by
  simp only [Form.runLambda, Level.items] at h
  cases hformals : formals.checkFormals with
  | error f => rw [hformals] at h; cases h
  | ok u =>
    cases hbody : body.properItems with
    | error f => rw [hformals, hbody] at h; cases h
    | ok es =>
      rw [hformals, hbody] at h
      cases h
      exact ⟨rfl, rfl⟩

/-- A lambda expression that has a value yields a closure over what is visible. -/
theorem eval_lambda_ok {traced : Bool} {depth : Nat} {env : Env} {installation : Nat}
    {operands v : Value} {s s₁ : EvalState}
    (h : eval traced depth env (.form .lambda installation) operands s = .ok v s₁) :
    ∃ formals body, v = .closure formals body s.store.tables.size ∧
      s₁ = { s with store := (s.store.allocate (s.store.collapse env)).2 } := by
  cases depth with
  | zero => cases h
  | succ depth =>
    change Form.runLambda (.ofDepth traced depth) env operands s = .ok v s₁ at h
    cases operands with
    | pair formals body => exact ⟨formals, body, Form.runLambda_ok h⟩
    | _ => cases h

theorem eval_symbol_ok {traced : Bool} {depth : Nat} {env : Env} {x : String}
    {operands v : Value} {s s' : EvalState}
    (h : eval traced depth env (.symbol x) operands s = .ok v s') :
    s' = s ∧ s.store.get? env x = some v := by
  cases depth with
  | zero => cases h
  | succ depth =>
    change EvalM.lookup env x s = .ok v s' at h
    rw [EvalM.lookup_eq] at h
    cases hget : s.store.get? env x with
    | none =>
      rw [hget] at h
      cases h
    | some u =>
      rw [hget] at h
      cases h
      exact ⟨rfl, rfl⟩

/-- A call by name that has an answer has that of the procedure that the name means. -/
theorem eval_call_ok {traced : Bool} {depth : Nat} {env : Env} {x : String}
    {f operands v : Value} {s s' : EvalState} (hx : s.store.get? env x = some f)
    (h : eval traced depth env (.pair (.symbol x) operands) .nil s = .ok v s') :
    ∃ depth' s₁, s₁.store = s.store ∧
      step (.ofDepth traced depth') env f operands s₁ = .ok v s' := by
  cases depth with
  | zero => cases h
  | succ depth =>
    obtain ⟨_, s₁, hreport, h⟩ := EvalM.ok_of_bind h
    obtain ⟨g, s₂, hsymbol, h⟩ := EvalM.ok_of_bind h
    have hstore := Level.store_of_report hreport
    obtain ⟨rfl, hget⟩ := eval_symbol_ok hsymbol
    rw [hstore, hx] at hget
    cases hget
    change Level.apply (.ofDepth traced depth) env f operands s₂ = .ok v s' at h
    unfold Level.apply at h
    split at h
    · cases depth with
      | zero => cases h
      | succ depth => exact ⟨depth, s₂, hstore, h⟩
    · cases h

def Value.definition (x : String) (formals body : Value) : Value :=
  .pair (.symbol "define") (.chain [.symbol x, .pair (.symbol "lambda") (.pair formals body)] .nil)

/-- A definition by a lambda expression that has a value puts what is visible at the next place, and
binds the name in the root to a closure over it. -/
theorem eval_definition_ok {traced : Bool} {depth i j : Nat} {env : Env} {x : String}
    {formals body v : Value} {s s' : EvalState}
    (hdefine : s.store.get? env "define" = some (.form .define i))
    (hlambda : s.store.get? env "lambda" = some (.form .lambda j))
    (h : eval traced depth env (.definition x formals body) .nil s = .ok v s') :
    v = .closure formals body s.store.tables.size ∧
      s'.store = (s.store.allocate (s.store.collapse env)).2.define env.root x v := by
  obtain ⟨depth₁, s₁, hs₁, h⟩ := eval_call_ok hdefine h
  change Form.runDefine (.ofDepth traced depth₁) env _ s₁ = .ok v s' at h
  rcases Form.runDefine_cases (.ofDepth traced depth₁) env
      (.chain [.symbol x, .pair (.symbol "lambda") (.pair formals body)] .nil) s₁ with
    ⟨f, hf⟩ | ⟨y, e, hitems, ⟨f, s₂, -, hf⟩ | ⟨u, s₂, he, hu⟩⟩
  · rw [hf] at h
    cases h
  · rw [hf] at h
    cases h
  · rw [hu] at h
    cases h
    cases hitems
    obtain ⟨depth₂, s₃, hs₃, hstep⟩ := eval_call_ok (hs₁.symm ▸ hlambda) he
    obtain ⟨rfl, rfl⟩ := Form.runLambda_ok hstep
    rw [hs₃, hs₁]
    exact ⟨rfl, rfl⟩

/-- A call of a closure comes to its body once the operands are bound. -/
theorem Closure.run_of_bind {level : Level} {caller : Env} {formals body operands : Value}
    {captured : TableId} {es : List Value} {s s₁ : EvalState}
    (hbind : Closure.bind level caller s.store.tables.size formals operands
      ⟨(s.store.allocate .empty).2, s.events⟩ = .ok () s₁)
    (hbody : body.properItems = .ok es) :
    Closure.run level caller formals body captured operands s =
      level.evaluateBody ((caller.push captured).push s.store.tables.size) es s₁ := by
  rw [Closure.run_eq]
  simp only [Bind.bind, EStateM.bind, hbind, Level.items, hbody, Level.lift, Pure.pure,
    EStateM.pure]

/-! ## To answers -/

/-- A computation has an answer and takes one store to another, whatever was reported before. -/
def Gives {α : Type} (x : EvalM α) (store : Store) (v : α) (store' : Store) : Prop :=
  ∀ events, ∃ events', x ⟨store, events⟩ = .ok v ⟨store', events'⟩

namespace Gives

variable {α β : Type} {store store₁ store₂ : Store} {level : Level} {env : Env}

theorem pure (v : α) : Gives (pure v) store v store := fun events => ⟨events, rfl⟩

theorem bind {x : EvalM α} {k : α → EvalM β} {u : α} {v : β} (h : Gives x store u store₁)
    (hk : Gives (k u) store₁ v store₂) : Gives (x >>= k) store v store₂ := by
  intro events
  obtain ⟨events₁, hx⟩ := h events
  obtain ⟨events₂, hk⟩ := hk events₁
  refine ⟨events₂, ?_⟩
  simp only [Bind.bind, EStateM.bind, hx]
  exact hk

theorem report {e : Event} (h : level.traced = true → e.obstacle? level.depth = none) :
    Gives (level.report e) store () store := by
  intro events
  unfold Level.report
  split
  · next htraced =>
    rw [h htraced]
    exact ⟨e :: events, rfl⟩
  · exact ⟨events, rfl⟩

theorem items (vs : List Value) : Gives (level.items (.chain vs .nil)) store vs store := by
  unfold Level.items Value.properItems
  rw [Value.items_chain_nil]
  exact pure vs

theorem evaluateAll {es vs : List Value}
    (h : List.Forall₂ (fun e v => Gives (level.evaluate env e) store v store) es vs) :
    Gives (level.evaluateAll env es) store vs store := by
  induction h with
  | nil => exact pure []
  | cons he _ ih => exact he.bind (ih.bind (pure _))

variable {traced : Bool} {depth : Nat}

theorem symbol {x : String} {v : Value} (h : store.get? env x = some v) :
    Gives (eval traced (depth + 1) env (.symbol x) .nil) store v store := by
  intro events
  refine ⟨events, ?_⟩
  change EvalM.lookup env x ⟨store, events⟩ = _
  rw [EvalM.lookup_eq, h]

theorem integer (n : Int) :
    Gives (eval traced (depth + 1) env (.integer n) .nil) store (.integer n) store := pure _

theorem quoted (v : Value) :
    Gives (eval traced (depth + 1) env (.quoted v) .nil) store v store := pure _

/-- A call by name of a procedure that has an answer. -/
theorem callByName {x : String} {f operands v : Value} (hx : store.get? env x = some f)
    (hf : f.isProcedure = true)
    (hwords : traced = true → (Event.applying (.symbol x) operands).obstacle? (depth + 1) = none)
    (h : Gives (step (.ofDepth traced depth) env f operands) store v store₁) :
    Gives (eval traced (depth + 2) env (.pair (.symbol x) operands) .nil) store v store₁ := by
  have happly : Gives (Level.apply (.ofDepth traced (depth + 1)) env f operands) store v
      store₁ := by
    unfold Level.apply
    rw [if_pos hf]
    exact h
  have hsymbol : Gives (eval traced (depth + 1) env (.symbol x) .nil) store f store := symbol hx
  exact (report hwords).bind (hsymbol.bind happly)

/-- A call of a native on expressions that have values. -/
theorem native {x : String} {p : Native} {installation : Nat} {es vs : List Value} {v : Value}
    (hx : store.get? env x = some (.native p installation)) (hp : p ≠ .apply)
    (hwords : traced = true →
      (Event.applying (.symbol x) (.chain es .nil)).obstacle? (depth + 1) = none)
    (hes : List.Forall₂ (fun e v => Gives (eval traced depth env e .nil) store v store) es vs)
    (hv : p.compute depth vs = .ok v) :
    Gives (eval traced (depth + 2) env (.pair (.symbol x) (.chain es .nil)) .nil) store v
      store := by
  have hall : Gives (Level.evaluateAll (.ofDepth traced depth) env es) store vs store :=
    evaluateAll hes
  refine callByName hx rfl hwords ((items es).bind (hall.bind ?_))
  split
  · exact absurd rfl hp
  · change Gives (Level.lift (.ofDepth traced depth) (p.compute depth vs)) store v store
    rw [hv]
    exact pure v

/-- A branch whose condition has a value. -/
theorem branch {x : String} {installation : Nat} {e consequent alternative v : Value}
    {answer : Bool} (hx : store.get? env x = some (.form .branch installation))
    (hwords : traced = true → (Event.applying (.symbol x)
      (.chain [e, consequent, alternative] .nil)).obstacle? (depth + 1) = none)
    (he : Gives (eval traced depth env e .nil) store (.boolean answer) store)
    (hv : Gives (eval traced depth env (if answer then consequent else alternative) .nil) store v
      store) :
    Gives (eval traced (depth + 2) env
      (.pair (.symbol x) (.chain [e, consequent, alternative] .nil)) .nil) store v store := by
  have hcondition : Gives (Form.condition (.ofDepth traced depth) env e) store answer store :=
    he.bind (pure answer)
  refine callByName hx rfl hwords ((items _).bind (hcondition.bind ?_))
  cases answer <;> exact hv

/-- Operands that have values in every store are bound to parameters one after the other. -/
theorem bindEach {caller : Env} {frame : TableId} {xs : List String} {es vs : List Value}
    (hes : List.Forall₂ (fun e v => ∀ store, Gives (level.evaluate caller e) store v store) es vs)
    (hlength : xs.length = es.length)
    (hwords : level.traced = true → ∀ v ∈ vs, v.obstacle? level.depth = none) (store : Store) :
    Gives (Closure.bindEach level caller frame (xs.map .symbol) es) store ()
      (store.defineAll frame (xs.zip vs)) := by
  induction hes generalizing xs store with
  | nil =>
    obtain rfl : xs = [] := List.eq_nil_of_length_eq_zero hlength
    exact pure ()
  | @cons e v es vs he _ ih =>
    obtain ⟨x, xs, rfl⟩ := List.exists_cons_of_length_eq_add_one hlength
    have hreport : Gives (level.report (.binding (.symbol x) v)) store () store := by
      refine report fun htraced => ?_
      have hv := hwords htraced v List.mem_cons_self
      simp [Event.obstacle?, Event.values, Value.obstacle?, hv]
    have hdefine : Gives (EvalM.define frame x v) store () (store.define frame x v) :=
      fun events => ⟨events, rfl⟩
    have hrest := ih (Nat.succ.inj hlength)
      (fun htraced u hu => hwords htraced u (List.mem_cons_of_mem v hu)) (store.define frame x v)
    exact (he store).bind (hreport.bind (hdefine.bind hrest))

/-- A call of a closure whose body is one expression. -/
theorem call {caller : Env} {captured : TableId} {xs : List String} {es vs : List Value}
    {e v : Value}
    (hes : List.Forall₂ (fun e v => ∀ store, Gives (level.evaluate caller e) store v store) es vs)
    (hlength : xs.length = es.length)
    (hwords : level.traced = true → ∀ v ∈ vs, v.obstacle? level.depth = none)
    (hv : Gives (level.evaluate ((caller.push captured).push store.tables.size) e)
      (store.openScope (xs.zip vs)) v store₁) :
    Gives (Closure.run level caller (.chain (xs.map .symbol) .nil) (.chain [e] .nil) captured
      (.chain es .nil)) store v store₁ := by
  have hallocate : Gives (EvalM.allocate .empty) store store.tables.size
      (store.allocate .empty).2 := fun events => ⟨events, rfl⟩
  have hbind : Gives (Closure.bind level caller store.tables.size (.chain (xs.map .symbol) .nil)
      (.chain es .nil)) (store.allocate .empty).2 () (store.openScope (xs.zip vs)) := by
    unfold Closure.bind
    split
    · next hsymbol => cases xs <;> simp at hsymbol
    · refine (items _).bind ((items es).bind ?_)
      rw [if_pos (by simpa using hlength)]
      exact bindEach hes hlength hwords _
  exact hallocate.bind (hbind.bind ((items [e]).bind hv))

/-- A definition of a name by an expression that has a value. -/
theorem define {x : String} {e v : Value} (he : Gives (level.evaluate env e) store v store₁) :
    Gives (Form.runDefine level env (.chain [.symbol x, e] .nil)) store v
      (store₁.define env.root x v) := by
  have hbind : Gives (EvalM.defineGlobal env x v) store₁ () (store₁.define env.root x v) :=
    fun events => ⟨events, rfl⟩
  exact (items _).bind (he.bind (hbind.bind (pure v)))

/-- An assignment of an expression that has a value to a name that is bound then. -/
theorem assign {x : String} {e v : Value} {id : TableId}
    (he : Gives (level.evaluate env e) store v store₁) (hfind : store₁.find? env x = some id) :
    Gives (Form.runAssign level env (.chain [.symbol x, e] .nil)) store v
      (store₁.define id x v) := by
  have hassign : Gives (EvalM.assign env x v) store₁ () (store₁.define id x v) := by
    intro events
    refine ⟨events, ?_⟩
    rw [EvalM.assign_eq, hfind]
  exact (items _).bind (he.bind (hassign.bind (pure v)))

/-- A lambda expression captures what is visible. -/
theorem lambda (xs : List String) (e : Value) :
    Gives (Form.runLambda level env (.pair (.chain (xs.map .symbol) .nil) (.chain [e] .nil))) store
      (.closure (.chain (xs.map .symbol) .nil) (.chain [e] .nil) store.tables.size)
      (store.allocate (store.collapse env)).2 := by
  have hformals : (Value.chain (xs.map .symbol) .nil).checkFormals = .ok () :=
    Formals.checkFormals_toValue (.each xs)
  have hcapture : Gives (EvalM.capture env) store store.tables.size
      (store.allocate (store.collapse env)).2 := fun events => ⟨events, rfl⟩
  have hchecked : Gives (level.lift (Value.chain (xs.map .symbol) .nil).checkFormals) store ()
      store := by
    rw [hformals]
    exact pure ()
  exact hchecked.bind ((items [e]).bind (hcapture.bind (pure _)))

end Gives

end MiniScheme
