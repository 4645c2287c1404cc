import MiniScheme.Proofs.Eval.Depth
import MiniScheme.Proofs.Eval.Outcome

/-!
# Short-circuit forms as branches

`cond`, `and` and `or` stop at the first operand that decides them. Where the operands that decide
are booleans, each of them does what a branch on its first operand does that goes on with the rest,
in value, fault and everything that is changed on the way. `and` and `or` may be split after their
first operand whatever its value is.

A branch goes one level of nesting deeper for each test, while the forms try their operands on one
level. So two ways of writing are compared with enough depth for both, and nothing is reported.

## Main definitions

* `Settles`: a computation ends in a certain way if it has enough depth.
* `Coincide`: two computations settle alike.
* `Stands`: an operator stands for a form.
* `After`: what is so once an expression has a value.

## Main statements

* `Settles.bind_iff`: a computation that starts with the evaluation of an expression.
* `Coincide.call`: a call of an operator that stands for a form.
* `shortCircuit_unfold`: the forms and the branches that they come to.
-/

namespace MiniScheme

/-! ## Computations with enough depth -/

/-- A computation ends in a certain way, and not for want of depth, as soon as it has a certain
depth. -/
def Settles {α : Type} (c : Level → EvalM α) (s : EvalState)
    (r : EStateM.Result Fault EvalState α) : Prop :=
  (∀ s', r ≠ .error .tooDeep s') ∧
    ∃ least, ∀ depth, least ≤ depth → c (.ofDepth false depth) s = r

/-- Two computations settle alike: with the same answer or fault, and in the same state. -/
def Coincide {α : Type} (c c' : Level → EvalM α) (s : EvalState) : Prop :=
  ∀ r, Settles c s r ↔ Settles c' s r

def evaluating (env : Env) (e : Value) : Level → EvalM Value := fun level => level.evaluate env e

/-- What is so of the value of an expression and of the state after it, if it has a value. -/
def After (env : Env) (e : Value) (P : Value → EvalState → Prop) (s : EvalState) : Prop :=
  ∀ v s', Settles (evaluating env e) s (.ok v s') → P v s'

namespace Settles

variable {α : Type} {c : Level → EvalM α} {s s' : EvalState} {env : Env} {e : Value}
  {r r' : EStateM.Result Fault EvalState α}

theorem unique (h : Settles c s r) (h' : Settles c s r') : r = r' := by
  obtain ⟨-, least, hc⟩ := h
  obtain ⟨-, least', hc'⟩ := h'
  rw [← hc (max least least') (Nat.le_max_left _ _), hc' _ (Nat.le_max_right _ _)]

/-- An evaluation that does not end for want of depth has settled. -/
theorem of_eval {depth : Nat} {r : EStateM.Result Fault EvalState Value}
    (hr : ∀ s', r ≠ .error .tooDeep s') (h : eval false depth env e .nil s = r) :
    Settles (evaluating env e) s r := by
  refine ⟨hr, depth, fun depth' hle => ?_⟩
  rcases (Level.linked_of_le false hle).evaluate env e s with ⟨s', hs'⟩ | hsame
  · exact absurd (h.symm.trans hs') (hr s')
  · exact hsame.trans h

/-- What follows on an evaluation goes on from its value, or does not come about. -/
theorem bind_iff {k : Level → Value → EvalM α} :
    Settles (fun level => evaluating env e level >>= k level) s r ↔
      (∃ f s', Settles (evaluating env e) s (.error f s') ∧ r = .error f s') ∨
        ∃ v s', Settles (evaluating env e) s (.ok v s') ∧ Settles (k · v) s' r := by
  constructor
  · rintro ⟨hr, least, hc⟩
    -- the first part has settled at the least depth, since the whole does not end there for want of
    -- depth
    cases he : eval false least env e .nil s with
    | error f s' =>
      have herror : r = .error f s' := (hc least (Nat.le_refl least)).symm.trans
        (EvalM.bind_of_error he _)
      subst herror
      exact .inl ⟨f, s', of_eval (by simpa using hr) he, rfl⟩
    | ok v s' =>
      obtain ⟨hok, enough, hvalue⟩ : Settles (evaluating env e) s (.ok v s') := of_eval (by simp) he
      refine .inr ⟨v, s', ⟨hok, enough, hvalue⟩, hr, max least enough, fun depth hle => ?_⟩
      have hbind := EvalM.bind_of_ok (hvalue depth (Nat.le_trans (Nat.le_max_right _ _) hle))
        (k (.ofDepth false depth))
      exact hbind.symm.trans (hc depth (Nat.le_trans (Nat.le_max_left _ _) hle))
  · rintro (⟨f, s', ⟨hf, least, hc⟩, rfl⟩ | ⟨v, s', ⟨-, least, hc⟩, hr, enough, hk⟩)
    · exact ⟨by simpa using hf, least, fun depth hle => EvalM.bind_of_error (hc depth hle) _⟩
    · refine ⟨hr, max least enough, fun depth hle => ?_⟩
      have hbind := EvalM.bind_of_ok (hc depth (Nat.le_trans (Nat.le_max_left _ _) hle))
        (k (.ofDepth false depth))
      exact hbind.trans (hk depth (Nat.le_trans (Nat.le_max_right _ _) hle))

end Settles

theorem After.of_eval {env : Env} {e v : Value} {P : Value → EvalState → Prop} {s s' : EvalState}
    {depth : Nat} (h : eval false depth env e .nil s = .ok v s') (hP : P v s') :
    After env e P s := by
  intro w s₁ hsettles
  cases (Settles.of_eval (by simp) h).unique hsettles
  exact hP

namespace Coincide

variable {α : Type} {c c' c'' : Level → EvalM α} {s : EvalState} {env : Env} {e : Value}

theorem refl (c : Level → EvalM α) (s : EvalState) : Coincide c c s := fun _ => Iff.rfl

theorem symm (h : Coincide c c' s) : Coincide c' c s := fun r => (h r).symm

theorem trans (h : Coincide c c' s) (h' : Coincide c' c'' s) : Coincide c c'' s :=
  fun r => (h r).trans (h' r)

/-- A computation that needs more depth for the same settles alike. -/
theorem of_more (more : Nat)
    (h : ∀ depth, c (.ofDepth false (depth + more)) s = c' (.ofDepth false depth) s) :
    Coincide c c' s := by
  intro r
  refine and_congr_right fun _ => ⟨?_, ?_⟩
  · rintro ⟨least, hc⟩
    exact ⟨least, fun depth hle => (h depth).symm.trans (hc _ (Nat.le_add_right_of_le hle))⟩
  · rintro ⟨least, hc⟩
    refine ⟨least + more, fun depth hle => ?_⟩
    obtain ⟨depth, rfl⟩ := Nat.exists_eq_add_of_le' (Nat.le_of_add_left_le hle)
    exact (h depth).trans (hc depth (Nat.le_of_add_le_add_right hle))

/-- What follows on the same evaluation need only coincide from the value that is come to. -/
theorem bind {k k' : Level → Value → EvalM α}
    (h : After env e (fun v s' => Coincide (k · v) (k' · v) s') s) :
    Coincide (fun level => evaluating env e level >>= k level)
      (fun level => evaluating env e level >>= k' level) s := by
  intro r
  rw [Settles.bind_iff, Settles.bind_iff]
  refine or_congr_right ⟨?_, ?_⟩
  · rintro ⟨v, s', he, hk⟩
    exact ⟨v, s', he, (h v s' he r).mp hk⟩
  · rintro ⟨v, s', he, hk⟩
    exact ⟨v, s', he, (h v s' he r).mpr hk⟩

end Coincide

/-! ## Calls of operators -/

/-- An operator stands for a form: it is the form itself, or a name that is bound to it. -/
def Stands (f : Form) (env : Env) (op : Value) (s : EvalState) : Prop :=
  ∃ installation, op = .form f installation ∨
    ∃ x, op = .symbol x ∧ s.store.get? env x = some (.form f installation)

def Value.call (op : Value) (operands : List Value) : Value := .pair op (.chain operands .nil)

theorem eval_of_stands {f : Form} {env : Env} {op : Value} {s : EvalState}
    (h : Stands f env op s) (operands : Value) (depth : Nat) :
    eval false (depth + 2) env (.pair op operands) .nil s =
      f.run (.ofDepth false depth) env operands s := by
  obtain ⟨installation, rfl | ⟨x, rfl, hx⟩⟩ := h
  · rfl
  · have hsymbol : eval false (depth + 1) env (.symbol x) .nil s =
        .ok (.form f installation) s := by
      change EvalM.lookup env x s = _
      rw [EvalM.lookup_eq, hx]
    exact EvalM.bind_of_ok hsymbol fun g => (Level.ofDepth false (depth + 1)).apply env g operands

/-- A call settles as the form that the operator stands for. -/
theorem Coincide.call {f : Form} {env : Env} {op : Value} {s : EvalState} (h : Stands f env op s)
    (operands : List Value) :
    Coincide (evaluating env (op.call operands))
      (fun level => f.run level env (.chain operands .nil)) s :=
  .of_more 2 fun depth => eval_of_stands h _ depth

@[simp] theorem Level.items_chain (level : Level) (vs : List Value) :
    level.items (.chain vs .nil) = pure vs := by
  rw [items, Value.properItems, Value.items_chain_nil]
  rfl

/-- A boolean stands for itself. -/
theorem Coincide.boolean (env : Env) (b : Bool) (s : EvalState) :
    Coincide (evaluating env (.boolean b)) (fun _ => pure (.boolean b)) s :=
  .of_more 1 fun _ => rfl

/-! ## Branches -/

def YieldsBoolean (env : Env) (e : Value) : EvalState → Prop :=
  After env e fun v _ => ∃ b, v = .boolean b

section Branch

variable {env : Env} {op e : Value} {s : EvalState}

/-- A branch goes on by its condition, if this yields a boolean. -/
theorem Coincide.branch_of_run {operands : List Value} {yes no : Level → EvalM Value}
    (hop : Stands .branch env op s) (he : YieldsBoolean env e s)
    (hrun : ∀ level, Form.branch.run level env (.chain operands .nil) =
      Form.condition level env e >>= fun b => if b then yes level else no level) :
    Coincide (evaluating env (op.call operands))
      (fun level => evaluating env e level >>= fun v =>
        if v = .boolean true then yes level else no level) s := by
  refine (Coincide.call hop _).trans ?_
  simp only [hrun, Form.condition, bind_assoc]
  refine .bind fun v s' hv => ?_
  obtain ⟨b, rfl⟩ := he v s' hv
  cases b <;> exact .refl _ _

theorem Coincide.branch (hop : Stands .branch env op s) (he : YieldsBoolean env e s)
    (consequent alternative : Value) :
    Coincide (evaluating env (op.call [e, consequent, alternative]))
      (fun level => evaluating env e level >>= fun v =>
        if v = .boolean true then evaluating env consequent level
        else evaluating env alternative level) s := by
  refine .branch_of_run hop he fun level => ?_
  rw [Form.run, Form.runBranch, Level.items_chain, pure_bind]
  rfl

theorem Coincide.guard (hop : Stands .branch env op s) (he : YieldsBoolean env e s)
    (consequent : Value) :
    Coincide (evaluating env (op.call [e, consequent]))
      (fun level => evaluating env e level >>= fun v =>
        if v = .boolean true then evaluating env consequent level else pure .nil) s := by
  refine .branch_of_run hop he fun level => ?_
  rw [Form.run, Form.runBranch, Level.items_chain, pure_bind]
  rfl

end Branch

/-! ## Clauses -/

namespace Clauses

def operands (clauses : List (Value × Value)) : List Value :=
  clauses.map fun clause => .chain [clause.1, clause.2] .nil

/-- The branches, each within the one before, that some clauses come to. -/
def nested (op : Value) : (clauses : List (Value × Value)) → Value
  | [] => .nil
  | [(test, e)] => op.call [test, e]
  | (test, e) :: clause :: clauses => op.call [test, e, nested op (clause :: clauses)]

/-- Something is so of every test that is come to, in the state in which it is. -/
def EachTest (env : Env) (P : Value → EvalState → Prop) :
    (clauses : List (Value × Value)) → EvalState → Prop
  | [], _ => True
  | (test, _) :: clauses, s =>
    P test s ∧ After env test (fun v s' => Form.fires v = false → EachTest env P clauses s') s

/-- The first clause is taken or left by its test. -/
theorem tryClauses_cons (level : Level) (env : Env) (test e : Value)
    (clauses : List (Value × Value)) :
    Form.tryClauses level env (operands ((test, e) :: clauses)) =
      evaluating env test level >>= fun v =>
        if Form.fires v then evaluating env e level
        else Form.tryClauses level env (operands clauses) := by
  simp only [operands, List.map_cons, Form.tryClauses, Level.items_chain, pure_bind]
  rfl

variable {env : Env} {branch : Value}

/-- Clauses whose tests are booleans are tried as nested branches are evaluated. -/
theorem coincide_nested {clauses : List (Value × Value)} {s : EvalState}
    (hbranch : EachTest env (fun _ => Stands .branch env branch) clauses s)
    (hboolean : EachTest env (YieldsBoolean env) clauses s) :
    Coincide (fun level => Form.tryClauses level env (operands clauses))
      (evaluating env (nested branch clauses)) s := by
  induction clauses generalizing s with
  | nil => exact Coincide.symm (.of_more 1 fun _ => rfl)
  | cons clause clauses ih =>
    obtain ⟨test, e⟩ := clause
    obtain ⟨hop, hbranch⟩ := hbranch
    obtain ⟨hyields, hboolean⟩ := hboolean
    -- after a test that is false, the rest is tried as the rest of the branches is evaluated
    have hrest : After env test (fun v s' => v = .boolean false →
        Coincide (fun level => Form.tryClauses level env (operands clauses))
          (evaluating env (nested branch clauses)) s') s := by
      rintro v s' hv rfl
      exact ih (hbranch _ s' hv rfl) (hboolean _ s' hv rfl)
    simp only [tryClauses_cons]
    cases clauses with
    | nil =>
      refine Coincide.trans (.bind fun v s' hv => ?_) (Coincide.guard hop hyields e).symm
      obtain ⟨b, rfl⟩ := hyields v s' hv
      cases b <;> exact .refl _ _
    | cons clause clauses =>
      refine Coincide.trans (.bind fun v s' hv => ?_) (Coincide.branch hop hyields e _).symm
      obtain ⟨b, rfl⟩ := hyields v s' hv
      cases b with
      | true => exact .refl _ _
      | false => exact hrest _ s' hv rfl

end Clauses

/-! ## Conjunctions and disjunctions -/

section Logic

variable {env : Env} {op e : Value} {es : List Value} {s : EvalState}

theorem Coincide.conjunction (h : Stands .conjunction env op s) (es : List Value) :
    Coincide (evaluating env (op.call es))
      (fun level => Form.allTrue level env (.boolean true) es) s := by
  refine (Coincide.call h es).trans ?_
  simp only [Form.run, Form.runConjunction, Level.items_chain, pure_bind]
  exact .refl _ _

theorem Coincide.disjunction (h : Stands .disjunction env op s) (es : List Value) :
    Coincide (evaluating env (op.call es)) (fun level => Form.anyTrue level env es) s := by
  refine (Coincide.call h es).trans ?_
  simp only [Form.run, Form.runDisjunction, Level.items_chain, pure_bind]
  exact .refl _ _

theorem allTrue_singleton (level : Level) (env : Env) (last e : Value) :
    Form.allTrue level env last [e] = evaluating env e level := by
  have hlast (v : Value) : (if v = .boolean false then pure v else pure v : EvalM Value) = pure v :=
    ite_self _
  simp only [Form.allTrue, hlast, bind_pure]
  rfl

theorem anyTrue_singleton (level : Level) (env : Env) (e : Value) :
    Form.anyTrue level env [e] = evaluating env e level := by
  have hlast (v : Value) : (if v = .boolean false then pure (.boolean false) else pure v :
      EvalM Value) = pure v := by
    split
    · next h => rw [h]
    · rfl
  simp only [Form.anyTrue, hlast, bind_pure]
  rfl

/-- What the value so far is makes no difference if there are more expressions. -/
theorem allTrue_of_ne_nil (level : Level) (env : Env) (last last' : Value) (hes : es ≠ []) :
    Form.allTrue level env last es = Form.allTrue level env last' es := by
  cases es with
  | nil => exact absurd rfl hes
  | cons e es => rfl

/-- A conjunction whose first operand is a boolean is a branch on it. -/
theorem conjunction_coincide_branch {branch : Value} (hop : Stands .conjunction env op s)
    (hbranch : Stands .branch env branch s) (he : YieldsBoolean env e s)
    (hrest : After env e (fun v s' => v ≠ .boolean false → Stands .conjunction env op s') s) :
    Coincide (evaluating env (op.call (e :: es)))
      (evaluating env (branch.call [e, op.call es, .boolean false])) s := by
  refine (Coincide.conjunction hop _).trans (.trans ?_ (Coincide.branch hbranch he _ _).symm)
  refine .bind fun v s' hv => ?_
  obtain ⟨b, rfl⟩ := he v s' hv
  cases b with
  | true => exact (Coincide.conjunction (hrest _ s' hv (by simp)) es).symm
  | false => exact (Coincide.boolean env false s').symm

/-- A disjunction whose first operand is a boolean is a branch on it. -/
theorem disjunction_coincide_branch {branch : Value} (hop : Stands .disjunction env op s)
    (hbranch : Stands .branch env branch s) (he : YieldsBoolean env e s)
    (hrest : After env e (fun v s' => v = .boolean false → Stands .disjunction env op s') s) :
    Coincide (evaluating env (op.call (e :: es)))
      (evaluating env (branch.call [e, .boolean true, op.call es])) s := by
  refine (Coincide.disjunction hop _).trans (.trans ?_ (Coincide.branch hbranch he _ _).symm)
  refine .bind fun v s' hv => ?_
  obtain ⟨b, rfl⟩ := he v s' hv
  cases b with
  | true => exact (Coincide.boolean env true s').symm
  | false => exact (Coincide.disjunction (hrest _ s' hv rfl) es).symm

/-- A conjunction may be split after its first operand, if there are more. -/
theorem conjunction_coincide_split (hop : Stands .conjunction env op s) (hes : es ≠ [])
    (hrest : After env e (fun v s' => v ≠ .boolean false → Stands .conjunction env op s') s) :
    Coincide (evaluating env (op.call (e :: es))) (evaluating env (op.call [e, op.call es])) s := by
  refine (Coincide.conjunction hop _).trans (.trans ?_ (Coincide.conjunction hop _).symm)
  refine .bind fun v s' hv => ?_
  simp only [allTrue_singleton]
  by_cases hfalse : v = .boolean false
  · simp only [if_pos hfalse]
    exact .refl _ _
  · simp only [if_neg hfalse, allTrue_of_ne_nil _ env v (.boolean true) hes]
    exact (Coincide.conjunction (hrest v s' hv hfalse) es).symm

/-- A disjunction may be split after its first operand. -/
theorem disjunction_coincide_split (hop : Stands .disjunction env op s)
    (hrest : After env e (fun v s' => v = .boolean false → Stands .disjunction env op s') s) :
    Coincide (evaluating env (op.call (e :: es))) (evaluating env (op.call [e, op.call es])) s := by
  refine (Coincide.disjunction hop _).trans (.trans ?_ (Coincide.disjunction hop _).symm)
  refine .bind fun v s' hv => ?_
  simp only [anyTrue_singleton]
  by_cases hfalse : v = .boolean false
  · simp only [if_pos hfalse]
    exact (Coincide.disjunction (hrest v s' hv hfalse) es).symm
  · simp only [if_neg hfalse]
    exact .refl _ _

end Logic

/-! ## All three forms -/

/-- **Short-circuit forms.** Where the operators stand for the forms as often as they are come to: a
`cond` whose tests are booleans, as far as they are come to, settles as nested branches do; so do
`and` and `or` and a branch on their first operand, if that is a boolean; and both may be split
after their first operand, whatever it is. -/
theorem shortCircuit_unfold {env : Env} {s : EvalState}
    {branch cond conjunction disjunction : Value} (hbranch : Stands .branch env branch s)
    (hcond : Stands .cond env cond s) (hconjunction : Stands .conjunction env conjunction s)
    (hdisjunction : Stands .disjunction env disjunction s) :
    (∀ clauses, Clauses.EachTest env (fun _ => Stands .branch env branch) clauses s →
      Clauses.EachTest env (YieldsBoolean env) clauses s →
      Coincide (evaluating env (cond.call (Clauses.operands clauses)))
        (evaluating env (Clauses.nested branch clauses)) s) ∧
    ∀ e es,
      (After env e (fun v s' => v ≠ .boolean false → Stands .conjunction env conjunction s') s →
        (YieldsBoolean env e s →
          Coincide (evaluating env (conjunction.call (e :: es)))
            (evaluating env (branch.call [e, conjunction.call es, .boolean false])) s) ∧
        (es ≠ [] →
          Coincide (evaluating env (conjunction.call (e :: es)))
            (evaluating env (conjunction.call [e, conjunction.call es])) s)) ∧
      (After env e (fun v s' => v = .boolean false → Stands .disjunction env disjunction s') s →
        (YieldsBoolean env e s →
          Coincide (evaluating env (disjunction.call (e :: es)))
            (evaluating env (branch.call [e, .boolean true, disjunction.call es])) s) ∧
        Coincide (evaluating env (disjunction.call (e :: es)))
          (evaluating env (disjunction.call [e, disjunction.call es])) s) := by
  refine ⟨fun clauses hstands hboolean => ?_, fun e es => ⟨fun hrest => ⟨?_, ?_⟩,
    fun hrest => ⟨?_, ?_⟩⟩⟩
  · refine (Coincide.call hcond _).trans ?_
    simp only [Form.run, Form.runCond, Level.items_chain, pure_bind]
    exact Clauses.coincide_nested hstands hboolean
  · exact fun he => conjunction_coincide_branch hconjunction hbranch he hrest
  · exact fun hes => conjunction_coincide_split hconjunction hes hrest
  · exact fun he => disjunction_coincide_branch hdisjunction hbranch he hrest
  · exact disjunction_coincide_split hdisjunction hrest

/-- The test changes what it asks for: of two clauses with it the second one is taken, and of two
operands of a disjunction the second one decides. -/
theorem shortCircuit_unfold_of_flag :
    let env : Env := ⟨[], 0⟩
    let state (flag : Bool) : EvalState :=
      ⟨⟨#[Table.empty.insertAll (("flag", .boolean flag) :: builtins 0)], 1⟩, []⟩
    let test := (Value.symbol "set!").call
      [.symbol "flag", (Value.symbol "not").call [.symbol "flag"]]
    let clauses := [(test, .integer 1), (test, .integer 2)]
    Settles (evaluating env ((Value.symbol "cond").call (Clauses.operands clauses))) (state true)
        (.ok (.integer 2) (state true)) ∧
      Settles (evaluating env ((Value.symbol "and").call [test, test])) (state true)
        (.ok (.boolean false) (state false)) ∧
      Settles (evaluating env ((Value.symbol "or").call [test, test])) (state true)
        (.ok (.boolean true) (state true)) := by
  intro env state test clauses
  have hstands (f : Form) (flag : Bool) : Stands f env (.symbol f.name) (state flag) := by
    refine ⟨0, .inr ⟨f.name, rfl, ?_⟩⟩
    cases f <;> cases flag <;> rfl
  have htoggle (flag : Bool) :
      eval false 6 env test .nil (state flag) = .ok (.boolean !flag) (state !flag) := by
    cases flag <;> rfl
  have hafter {P : Value → EvalState → Prop} (flag : Bool)
      (hP : P (.boolean !flag) (state !flag)) : After env test P (state flag) :=
    .of_eval (htoggle flag) hP
  have hyields (flag : Bool) : YieldsBoolean env test (state flag) := hafter flag ⟨!flag, rfl⟩
  -- what is so of the test whatever the flag is, is so of each test
  have heach (P : Value → EvalState → Prop) (hP : ∀ flag, P test (state flag)) :
      Clauses.EachTest env P clauses (state true) :=
    ⟨hP true, hafter true fun _ => ⟨hP false, hafter false fun _ => trivial⟩⟩
  obtain ⟨hcond, hlogic⟩ := shortCircuit_unfold (hstands .branch true) (hstands .cond true)
    (hstands .conjunction true) (hstands .disjunction true)
  obtain ⟨hand, hor⟩ := hlogic test [test]
  have hnested : eval false 12 env (Clauses.nested (.symbol "if") clauses) .nil (state true) =
      .ok (.integer 2) (state true) := rfl
  have hbranch : eval false 12 env ((Value.symbol "if").call
      [test, (Value.symbol "and").call [test], .boolean false]) .nil (state true) =
      .ok (.boolean false) (state false) := rfl
  have hsplit : eval false 12 env ((Value.symbol "or").call
      [test, (Value.symbol "or").call [test]]) .nil (state true) =
      .ok (.boolean true) (state true) := rfl
  refine ⟨(hcond clauses ?_ ?_ _).mpr (.of_eval (by simp) hnested),
    ((hand (hafter true fun _ => hstands .conjunction false)).1 (hyields true) _).mpr
      (.of_eval (by simp) hbranch),
    ((hor (hafter true fun _ => hstands .disjunction false)).2 _).mpr (.of_eval (by simp) hsplit)⟩
  · exact heach _ (hstands .branch)
  · exact heach _ hyields

end MiniScheme
