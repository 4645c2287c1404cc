import MiniScheme.Proofs.Eval.Moments
import MiniScheme.Proofs.Session.Joined

/-!
# Calls of what is not a procedure

A pair whose left half has a value that is not a procedure faults. Nothing but the left half has
been evaluated by then, so its bindings are those that the left half leaves.

A left half that is a procedure already is not evaluated. Of what is read from a text, this is so of
quoted expressions and nothing else, and a quoted expression in front of operands yields what it
quotes.

## Main definitions

* `Refuses`: a call faults on the value of its operator.
* `Ignores`: a call of a quoted expression does without its operands.

## Main statements

* `Enters.of_watch`, `Enters.of_bind`: where an evaluation comes to another one.
* `Session.quoted_of_isProcedure`: the procedures that are read.
* `Session.call_of_mem_forms`: calls of what is read.
-/

namespace MiniScheme

/-! ## Coming to an evaluation -/

section Enters

variable {env env' : Env} {v operands e operands' : Value} {s s₁ : EvalState}

/-- Besides itself, an evaluation comes to what its rule comes to. -/
theorem Enters.of_watch {traced : Bool} {depth : Nat}
    (h : Enters (fun alarm => watch alarm traced (depth + 1) env v operands) s env' e operands'
      s₁) :
    (env' = env ∧ e = v ∧ operands' = operands) ∨
      Enters (fun alarm => step (.watched alarm traced depth) env v operands) s env' e operands'
        s₁ := by
  obtain ⟨picks, hmeets, hpicks⟩ := h
  simp only [Meets, watch_succ] at hmeets
  cases hentry : picks (.entry env v operands s.store) with
  | true =>
    obtain ⟨store, hm⟩ := hpicks _ hentry
    cases hm
    exact .inl ⟨rfl, rfl, rfl⟩
  | false =>
    refine .inr ⟨picks, fun f => ?_, hpicks⟩
    have hinspect := hmeets f
    simp only [hentry, Bool.false_eq_true, if_false] at hinspect
    cases hstep : step (.watched ⟨picks, f⟩ traced depth) env v operands s with
    | error g s' =>
      rw [hstep] at hinspect
      exact hstep.trans hinspect
    | ok answer s' =>
      -- no answer is among the moments that are picked
      have hresult : picks (.result answer s'.store) = false := by
        by_contra hpick
        obtain ⟨store, hm⟩ := hpicks _ (by simpa using hpick)
        cases hm
      simp [hstep, Alarm.inspect, hresult] at hinspect

/-- One computation after another comes to an evaluation in the first one or in the second one. -/
theorem Enters.of_bind {α β : Type} {c : Alarm → EvalM α} {k : Alarm → α → EvalM β}
    {good : Discipline.lax.World → α → Prop}
    (hlax : ∀ {a b : Alarm}, (∀ m, b.picks m = true → a.picks m = true) →
      Discipline.Tracks a b () (c a) (c b) good)
    (h : Enters (fun alarm => c alarm >>= k alarm) s env' e operands' s₁) :
    Enters c s env' e operands' s₁ ∨
      ∃ u s', c .silent s = .ok u s' ∧ Enters (fun alarm => k alarm u) s' env' e operands' s₁ := by
  obtain ⟨picks, hmeets, hpicks⟩ := h
  rcases Discipline.meets_bind hlax hmeets with hfirst | ⟨-, u, s', hu, hsecond⟩
  · exact .inl ⟨picks, hfirst, hpicks⟩
  · exact .inr ⟨u, s', hu, picks, hsecond, hpicks⟩

/-- What pays no attention to the alarm comes to no evaluation. -/
theorem not_enters_const {α : Type} (c : EvalM α) :
    ¬ Enters (fun _ => c) s env' e operands' s₁ := by
  rintro ⟨picks, hmeets, -⟩
  obtain ⟨f, hf⟩ := Discipline.exists_fault_ne (c s)
  exact hf s₁ (hmeets f)

/-- After a report an evaluation goes on with the same bindings. -/
theorem Enters.of_report {α : Type} {traced : Bool} {depth : Nat} {event : Event}
    {k : Alarm → EvalM α}
    (h : Enters (fun alarm => (Level.watched alarm traced depth).report event >>= fun _ => k alarm)
      s env' e operands' s₁) : ∃ events, Enters k ⟨s.store, events⟩ env' e operands' s₁ := by
  -- whether and what is reported does not depend on the alarm
  rcases Enters.of_bind (c := fun _ => (Level.ofDepth traced depth).report event)
    (k := fun alarm _ => k alarm)
    (fun hweaker => (Discipline.lax_matched hweaker traced depth).report event) h with
    hreport | ⟨_, s', hs', hrest⟩
  · exact (not_enters_const _ hreport).elim
  · refine ⟨s'.events, ?_⟩
    rwa [← Level.store_of_report hs']

end Enters

/-! ## Calls -/

section Call

variable {traced : Bool} {depth : Nat} {env : Env} {f operands tail v : Value} {s s' : EvalState}

theorem Level.report_eq_ok (level : Level) {event : Event}
    (h : level.traced = true → event.obstacle? level.depth = none) (s : EvalState) :
    ∃ events, level.report event s = .ok () ⟨s.store, events⟩ := by
  unfold Level.report
  cases htraced : level.traced with
  | false => exact ⟨s.events, rfl⟩
  | true =>
    rw [h htraced]
    exact ⟨event :: s.events, rfl⟩

theorem Level.apply_of_not_isProcedure (level : Level) (env : Env) (operands : Value)
    (hv : v.isProcedure = false) (hprints : v.obstacle? level.depth = none) :
    level.apply env v operands = throw (.notAProcedure v) := by
  have hworded : (Fault.notAProcedure v).worded level.depth = .notAProcedure v := by
    simp [Fault.worded, Fault.culprit?, hprints]
  rw [Level.apply, hv, Level.raise, hworded]
  rfl

theorem step_pair_of_not_isProcedure (level : Level) (env : Env) (operands tail : Value)
    (hf : f.isProcedure = false) :
    step level env (.pair f operands) tail =
      level.report (.applying f operands) >>= fun _ =>
        level.evaluate env f >>= fun g => level.apply env g operands := by
  simp [step, hf]

/-- What was reported before makes no difference to what an expression yields and leaves. -/
theorem eval_eq_ok_of_events (h : eval traced depth env f operands s = .ok v s')
    (events : List Event) :
    ∃ events', eval traced depth env f operands ⟨s.store, events⟩ = .ok v ⟨s'.store, events'⟩ := by
  rw [show s = ⟨s.store, s.events⟩ from rfl, eval_after] at h
  rw [eval_after]
  cases hplain : eval traced depth env f operands ⟨s.store, []⟩ with
  | error g s₀ =>
    rw [hplain] at h
    cases h
  | ok w s₀ =>
    rw [hplain] at h
    cases h
    exact ⟨_, rfl⟩

/-- A call faults, since the value of its operator is not a procedure. It leaves a given store, and
besides itself it has come only to what the evaluation of the operator comes to. -/
structure Refuses (traced : Bool) (depth : Nat) (env : Env) (f operands tail v : Value)
    (s : EvalState) (store : Store) : Prop where
  faults : ∃ events, eval traced (depth + 1) env (.pair f operands) tail s =
    .error (.notAProcedure v) ⟨store, events⟩
  enters : ∀ {env' e operands' s₁},
    Enters (fun alarm => watch alarm traced (depth + 1) env (.pair f operands) tail) s env' e
        operands' s₁ →
      (env' = env ∧ e = .pair f operands ∧ operands' = tail) ∨
        ∃ events, Enters (fun alarm => watch alarm traced depth env f .nil) ⟨s.store, events⟩ env'
          e operands' s₁

/-- A call yields a value and changes no binding, and it comes to nothing but itself and the
operator, which is called as it stands. -/
structure Ignores (traced : Bool) (depth : Nat) (env : Env) (f operands tail v : Value)
    (s : EvalState) : Prop where
  yields : ∃ events, eval traced (depth + 1) env (.pair f operands) tail s =
    .ok v ⟨s.store, events⟩
  enters : ∀ {env' e operands' s₁},
    Enters (fun alarm => watch alarm traced (depth + 1) env (.pair f operands) tail) s env' e
        operands' s₁ →
      (env' = env ∧ e = .pair f operands ∧ operands' = tail) ∨
        (env' = env ∧ e = f ∧ operands' = operands)

theorem refuses_of_value (hf : f.isProcedure = false)
    (hreport : traced = true → (Event.applying f operands).obstacle? depth = none)
    (heval : eval traced depth env f .nil s = .ok v s') (hv : v.isProcedure = false)
    (hprints : v.obstacle? depth = none) :
    Refuses traced depth env f operands tail v s s'.store := by
  obtain ⟨events, hreported⟩ := Level.report_eq_ok (.ofDepth traced depth) hreport s
  obtain ⟨events', hvalue⟩ := eval_eq_ok_of_events heval events
  refine ⟨⟨events', ?_⟩, fun henters => ?_⟩
  · rw [eval_succ, step_pair_of_not_isProcedure _ env operands tail hf,
      EvalM.bind_of_ok hreported]
    refine (EvalM.bind_of_ok hvalue _).trans ?_
    rw [Level.apply_of_not_isProcedure _ env operands hv hprints]
    rfl
  · refine henters.of_watch.imp_right fun hstep => ?_
    simp only [step_pair_of_not_isProcedure _ env operands tail hf] at hstep
    obtain ⟨events₂, hcall⟩ := hstep.of_report
    rcases Enters.of_bind (c := fun alarm => watch alarm traced depth env f .nil)
      (k := fun alarm g => (Level.watched alarm traced depth).apply env g operands)
      (fun hweaker => (Discipline.lax_matched hweaker traced depth).evaluate trivial
        (Discipline.lax_allows f)) hcall with hoperator | ⟨w, s₃, hw, hcalled⟩
    · exact ⟨_, hoperator⟩
    -- the operator has its value, and with it no evaluation is left
    · obtain ⟨events₃, hagain⟩ := eval_eq_ok_of_events heval events₂
      obtain rfl : w = v := by
        rw [watch_silent] at hw
        cases hw.symm.trans hagain
        rfl
      simp only [Level.apply_of_not_isProcedure (.watched _ traced depth) env operands hv
        hprints] at hcalled
      exact (not_enters_const _ hcalled).elim

theorem ignores_of_quoted {e : Value}
    (hreport : traced = true → (Event.applying (.quoted e) operands).obstacle? depth = none)
    (heval : eval traced depth env (.quoted e) .nil s = .ok v s') :
    Ignores traced depth env (.quoted e) operands tail v s := by
  obtain ⟨events, hreported⟩ := Level.report_eq_ok (.ofDepth traced depth) hreport s
  cases depth with
  | zero => cases heval
  | succ depth =>
    cases heval
    refine ⟨⟨events, EvalM.bind_of_ok hreported _⟩, fun henters => ?_⟩
    refine henters.of_watch.imp_right fun hstep => ?_
    obtain ⟨events₂, hcall⟩ := Enters.of_report
      (k := fun alarm => watch alarm traced (depth + 1) env (.quoted v) operands) hstep
    exact hcall.of_watch.resolve_right fun hquoted => not_enters_const (pure v) hquoted

end Call

/-! ## Calls of what is read -/

/-- The only procedures that are read are quoted expressions. -/
theorem Reader.Derives.quoted_of_isProcedure {room : Nat} {ts : List Token} {f : Value}
    (h : Reader.Derives room ts (.expr f)) (hf : f.isProcedure = true) : ∃ e, f = .quoted e := by
  cases h with
  | quote h => exact ⟨_, rfl⟩
  | _ => cases hf

namespace Session

theorem quoted_of_isProcedure {limit : Nat} {source : String} {f : Value}
    (h : f ∈ Session.forms limit source) (hf : f.isProcedure = true) : ∃ e, f = .quoted e := by
  obtain ⟨ts, hderives⟩ := exists_derives_of_mem_forms h
  exact hderives.quoted_of_isProcedure hf

/-- **Calls of what is not a procedure.** If an operator that is read has a value that is not a
procedure and can be written, then its call faults, unless the operator is a quoted expression. This
is a procedure itself, and its call yields what the expression yields. Neither way is an operand
evaluated. -/
theorem call_of_mem_forms {limit : Nat} {source : String} {f : Value}
    (hread : f ∈ Session.forms limit source) {traced : Bool} {depth : Nat} {env : Env}
    {operands tail v : Value} {s s' : EvalState}
    (hreport : traced = true → (Event.applying f operands).obstacle? depth = none)
    (heval : eval traced depth env f .nil s = .ok v s') :
    ((∀ e, f ≠ .quoted e) → v.isProcedure = false → v.obstacle? depth = none →
      Refuses traced depth env f operands tail v s s'.store) ∧
    ((∃ e, f = .quoted e) → Ignores traced depth env f operands tail v s) := by
  refine ⟨fun hquoted hv hprints => ?_, ?_⟩
  · refine refuses_of_value ?_ hreport heval hv hprints
    by_contra hf
    obtain ⟨e, he⟩ := quoted_of_isProcedure hread (by simpa using hf)
    exact hquoted e he
  · rintro ⟨e, rfl⟩
    exact ignores_of_quoted hreport heval

/-- The operator changes a binding, and its value cannot be called. -/
theorem call_of_mem_forms_of_assignment :
    let env : Env := ⟨[], 0⟩
    let store (b : Bool) : Store :=
      ⟨#[Table.empty.insertAll (("x", .boolean b) :: builtins 0)], 1⟩
    let f := Value.chain [.symbol "set!", .symbol "x", .boolean true] .nil
    ∃ events, eval true 9 env (.pair f (.pair (.symbol "y") .nil)) .nil ⟨store false, []⟩ =
      .error (.notAProcedure (.boolean true)) ⟨store true, events⟩ := by
  intro env store f
  have hread : f ∈ Session.forms 1000 "(set! x #t)" := by decide
  have heval : eval true 8 env f .nil ⟨store false, []⟩ = .ok (.boolean true)
    ⟨store true, [.applying (.symbol "set!") (.chain [.symbol "x", .boolean true] .nil)]⟩ := rfl
  exact ((call_of_mem_forms hread (fun _ => rfl) heval).1 (by simp [f]) rfl rfl).faults

/-- A quoted number in front of operands does not fault, though its value is not a procedure. -/
theorem not_refuses_of_quoted : ¬ ∀ (limit : Nat) (source : String) (f : Value),
    f ∈ Session.forms limit source → ∀ (traced : Bool) (depth : Nat) (env : Env)
      (operands tail v : Value) (s s' : EvalState),
      (traced = true → (Event.applying f operands).obstacle? depth = none) →
      eval traced depth env f .nil s = .ok v s' → v.isProcedure = false →
      v.obstacle? depth = none → Refuses traced depth env f operands tail v s s'.store := by
  intro hrefuses
  have hread : Value.quoted (.integer 5) ∈ Session.forms 1000 "'5" := by decide
  have heval : eval false 3 ⟨[], 0⟩ (.quoted (.integer 5)) .nil default =
    .ok (.integer 5) default := rfl
  obtain ⟨events, hfaults⟩ := (hrefuses 1000 "'5" _ hread false 3 ⟨[], 0⟩
    (.chain [.integer 1, .integer 2] .nil) .nil _ default default (by simp) heval rfl
    (by decide +kernel)).faults
  cases hfaults

end Session

end MiniScheme
