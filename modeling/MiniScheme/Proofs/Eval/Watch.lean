import MiniScheme.Session

/-!
# Moments of an evaluation

An evaluation takes many evaluations of parts. To speak of what happens in between, an evaluation
is watched: a test picks moments at which a part is about to be evaluated or has just been, and a
fault is raised at the first of them. No rule catches a fault, so it ends the whole evaluation there
and then, and leaves the state of that moment behind.

## Main definitions

* `Moment`: the moments of an evaluation.
* `watch`: evaluation under an alarm.
* `Session.program`: the evaluation of a program, to be watched.

## Main statements

* `watch_silent`: an alarm that never rings changes nothing.
* `Session.run_world`, `Session.program_of_run`: a run is the evaluation of its program under such
  an alarm.
-/

namespace MiniScheme

/-- A moment of an evaluation: a value is about to be evaluated in front of operands, or has been
evaluated to another one. -/
inductive Moment where
  | entry (env : Env) (v operands : Value) (store : Store)
  | result (v : Value) (store : Store)

def Moment.store : Moment → Store
  | entry _ _ _ store => store
  | result _ store => store

/-- A test that picks moments, and the fault that is raised there. -/
structure Alarm where
  picks : Moment → Bool
  fault : Fault

namespace Alarm

def silent : Alarm := ⟨fun _ => false, .tooDeep⟩

def check (alarm : Alarm) (moment : Store → Moment) : EvalM Unit := do
  if alarm.picks (moment (← get).store) then throw alarm.fault

theorem check_eq (alarm : Alarm) (moment : Store → Moment) (s : EvalState) :
    alarm.check moment s =
      if alarm.picks (moment s.store) then .error alarm.fault s else .ok () s := by
  change (if alarm.picks (moment s.store) then throw alarm.fault else pure () : EvalM Unit) s = _
  split <;> rfl

/-- Raises the fault in place of an answer if the moment is picked. -/
def inspect (alarm : Alarm) :
    EStateM.Result Fault EvalState Value → EStateM.Result Fault EvalState Value
  | .ok answer s =>
    if alarm.picks (.result answer s.store) then .error alarm.fault s else .ok answer s
  | .error f s => .error f s

end Alarm

/-- Evaluates a value in front of operands under an alarm. -/
def watch (alarm : Alarm) (traced : Bool) : (depth : Nat) → Env → (v operands : Value) →
    EvalM Value
  | 0, _, _, _ => throw .tooDeep
  | depth + 1, env, v, operands => do
    alarm.check (.entry env v operands)
    let answer ← step ⟨traced, depth, watch alarm traced depth⟩ env v operands
    alarm.check (.result answer)
    return answer

def Level.watched (alarm : Alarm) (traced : Bool) (depth : Nat) : Level :=
  ⟨traced, depth, watch alarm traced depth⟩

theorem watch_succ (alarm : Alarm) (traced : Bool) (depth : Nat) (env : Env) (v operands : Value)
    (s : EvalState) :
    watch alarm traced (depth + 1) env v operands s =
      if alarm.picks (.entry env v operands s.store) then .error alarm.fault s
      else alarm.inspect (step (.watched alarm traced depth) env v operands s) := by
  have hlevel : (⟨traced, depth, watch alarm traced depth⟩ : Level) =
      .watched alarm traced depth := rfl
  simp only [watch, bind, EStateM.bind, Alarm.check_eq, hlevel]
  cases alarm.picks (.entry env v operands s.store) with
  | true => rfl
  | false =>
    cases hstep : step (.watched alarm traced depth) env v operands s with
    | error f s' => simp [hstep, Alarm.inspect]
    | ok answer s' =>
      cases hresult : alarm.picks (.result answer s'.store) <;>
        simp [hstep, hresult, Alarm.inspect, pure, EStateM.pure]

theorem watch_silent (traced : Bool) (depth : Nat) :
    watch .silent traced depth = eval traced depth := by
  induction depth with
  | zero => rfl
  | succ depth ih =>
    funext env v operands s
    have hlevel : Level.watched .silent traced depth = Level.ofDepth traced depth := by
      simp only [Level.watched, Level.ofDepth, ih]
    rw [watch_succ, eval_succ, hlevel]
    cases step (Level.ofDepth traced depth) env v operands s <;>
      simp [Alarm.inspect, Alarm.silent]

theorem Level.watched_silent (traced : Bool) (depth : Nat) :
    Level.watched .silent traced depth = Level.ofDepth traced depth := by
  simp only [Level.watched, Level.ofDepth, watch_silent]

def finalState {α : Type} : EStateM.Result Fault EvalState α → EvalState
  | .ok _ s => s
  | .error _ s => s

namespace Session

def evaluation (session : Session) (traced : Bool) (limit : Nat) (forms : List Value)
    (alarm : Alarm) : EvalM Value :=
  evaluateForms (.watched alarm traced limit) session.env .nil forms

/-- The expressions of a program that are evaluated: those before the first mistake, and none if
the program cannot be cut into tokens. -/
def forms (limit : Nat) (source : String) : List Value :=
  match Source.tokens source with
  | .error _ => []
  | .ok tokens => ((Cursor.ofTokens tokens).readAll limit).forms

def program (session : Session) (traced : Bool) (source : String) (world : World)
    (alarm : Alarm) : EvalM Value :=
  session.evaluation traced world.limit (forms world.limit source) alarm

theorem run_world (session : Session) (traced : Bool) (source : String) (world : World) :
    (session.run traced source world).world =
      { world with
        store := (finalState (session.program traced source world .silent
          ⟨world.store, []⟩)).store } := by
  unfold run program evaluation forms
  rw [Level.watched_silent]
  cases Source.tokens source with
  | error e => rfl
  | ok tokens =>
    simp only
    cases evaluateForms (.ofDepth traced world.limit) session.env .nil
      ((Cursor.ofTokens tokens).readAll world.limit).forms ⟨world.store, []⟩ <;> rfl

/-- The answer of a run is what its program evaluates to. -/
theorem program_of_run {session : Session} {traced : Bool} {source : String} {world : World}
    {v : Value} (h : (session.run traced source world).answer = .ok v) :
    ∃ s, session.program traced source world .silent ⟨world.store, []⟩ = .ok v s := by
  unfold run at h
  unfold program evaluation forms
  rw [Level.watched_silent]
  cases htokens : Source.tokens source with
  | error e => simp [htokens] at h
  | ok tokens =>
    simp only [htokens] at h ⊢
    cases heval : evaluateForms (.ofDepth traced world.limit) session.env .nil
      ((Cursor.ofTokens tokens).readAll world.limit).forms ⟨world.store, []⟩ with
    | error f s => simp [heval] at h
    | ok w s =>
      simp only [heval] at h
      cases herror : ((Cursor.ofTokens tokens).readAll world.limit).error with
      | none =>
        obtain rfl : w = v := by simpa [herror] using h
        exact ⟨s, rfl⟩
      | some e => simp [herror] at h

end Session

end MiniScheme
