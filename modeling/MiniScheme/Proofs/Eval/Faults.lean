import MiniScheme.Proofs.Eval.Congruence
import MiniScheme.Proofs.Eval.Rules

/-!
# Faults that an evaluation does not end in

Only two moments of an evaluation lead to a fault that is out of the ordinary: a name is looked up
that has no binding, and a closure is called whose parameters are not symbols. An evaluation under
an alarm that rings at these moments, for built-in names, ends in no such fault.

## Main definitions

* `Fault.isRegular`: the faults that are left.
* `Moment.isAmiss`: the moments that lead to others.

## Main statements

* `Native.isOrdinary_of_compute`: natives raise ordinary faults.
* `Level.watched_regular`: what evaluation under the alarm ends in.
-/

namespace MiniScheme

/-! ## Natives -/

namespace Native

theorem isOrdinary_of_bind {α β : Type} {x : Except Fault α} {k : α → Except Fault β} {f : Fault}
    (hx : ∀ f, x = .error f → f.isOrdinary = true)
    (hk : ∀ v, k v = .error f → f.isOrdinary = true) (h : x >>= k = .error f) :
    f.isOrdinary = true := by
  cases x with
  | error g => cases h; exact hx f rfl
  | ok v => exact hk v h

theorem isOrdinary_of_integers {p : Native} {vs : List Value} {f : Fault}
    (h : integers p vs = .error f) : f.isOrdinary = true := by
  induction vs with
  | nil => cases h
  | cons v vs ih =>
    cases v with
    | integer n =>
      simp only [integers] at h
      cases hvs : integers p vs with
      | error g => rw [hvs] at h; cases h; exact ih hvs
      | ok ns => rw [hvs] at h; cases h
    | _ => cases h; rfl

theorem isOrdinary_of_integerPair {p : Native} {v w : Value} {f : Fault}
    (h : integerPair p v w = .error f) : f.isOrdinary = true := by
  unfold integerPair at h
  split at h <;> cases h <;> rfl

theorem isOrdinary_of_quotients {n : Int} {ds : List Int} {f : Fault}
    (h : quotients n ds = .error f) : f.isOrdinary = true := by
  induction ds generalizing n with
  | nil => cases h
  | cons d ds ih =>
    unfold quotients at h
    split at h
    · cases h; rfl
    · exact ih h

theorem isOrdinary_of_remainder {n d : Int} {f : Fault} (h : remainder n d = .error f) :
    f.isOrdinary = true := by
  unfold remainder at h
  split at h <;> cases h
  rfl

/-- Natives raise ordinary faults. -/
theorem isOrdinary_of_compute {depth : Nat} {p : Native} {args : List Value} {f : Fault}
    (h : p.compute depth args = .error f) : f.isOrdinary = true := by
  unfold compute at h
  split at h
  · exact isOrdinary_of_bind (fun _ => isOrdinary_of_integers) (fun _ h => by cases h) h
  · refine isOrdinary_of_bind (fun _ => isOrdinary_of_integers) (fun ns hns => ?_) h
    cases ns <;> cases hns
    rfl
  · exact isOrdinary_of_bind (fun _ => isOrdinary_of_integers) (fun _ h => by cases h) h
  · refine isOrdinary_of_bind (fun _ => isOrdinary_of_integers) (fun ns hns => ?_) h
    cases ns with
    | nil => cases hns; rfl
    | cons n ds =>
      exact isOrdinary_of_bind (fun _ => isOrdinary_of_quotients) (fun _ h => by cases h) hns
  · refine isOrdinary_of_bind (fun _ => isOrdinary_of_integerPair) (fun _ hr => ?_) h
    exact isOrdinary_of_bind (fun _ => isOrdinary_of_remainder) (fun _ h => by cases h) hr
  · exact isOrdinary_of_bind (fun _ => isOrdinary_of_integerPair) (fun _ h => by cases h) h
  · exact isOrdinary_of_bind (fun _ => isOrdinary_of_integerPair) (fun _ h => by cases h) h
  · split at h <;> cases h
    rfl
  · cases h
  · cases h
  · exact isOrdinary_of_bind (fun _ => Value.isOrdinary_of_properItems)
      (fun _ h => by cases h) h
  all_goals cases h
  all_goals rfl

end Native

/-! ## Faults -/

namespace Fault

theorem isOrdinary_ofWriteError (e : Value.WriteError) : (ofWriteError e).isOrdinary = true := by
  cases e <;> rfl

theorem isOrdinary_worded {f : Fault} (h : f.isOrdinary = true) (depth : Nat) :
    (f.worded depth).isOrdinary = true := by
  unfold worded
  split
  · exact h
  · exact isOrdinary_ofWriteError _

/-- The ordinary faults, and that of a name without a binding which is not built in. -/
def isRegular : Fault → Bool
  | unresolved x => x ∉ builtinNames
  | f => f.isOrdinary

theorem isRegular_of_isOrdinary {f : Fault} (h : f.isOrdinary = true) : f.isRegular = true := by
  cases f with
  | unresolved x => cases h
  | _ => exact h

end Fault

/-- A built-in name is about to be looked up where it has no binding, or a closure is about to be
called whose parameters cannot be bound. -/
def Moment.isAmiss : Moment → Bool
  | entry env (.symbol x) _ store => x ∈ builtinNames ∧ store.get? env x = none
  | entry _ (.closure formals _ _) _ _ => !formals.checkFormals.isOk
  | _ => false

namespace Congruence

def regular : Congruence where
  Rel x _ := ∀ s f s', x s = .error f s' → f.isRegular = true
  refl hx s f s' h := Fault.isRegular_of_isOrdinary (hx s f s' h)
  bind {α β x y k l} hx hk s f s' h := by
    simp only [Bind.bind, EStateM.bind] at h
    cases hs : x s with
    | error g s₁ =>
      rw [hs] at h
      cases h
      exact hx s f s' hs
    | ok v s₁ =>
      rw [hs] at h
      exact hk v s₁ f s' h

theorem regular_raise {α : Type} (level : Level) {f : Fault} (h : f.isOrdinary = true) :
    regular.Rel (level.raise f : EvalM α) (level.raise f) := by
  intro s g s' hraise
  cases hraise
  exact Fault.isRegular_of_isOrdinary (Fault.isOrdinary_worded h _)

/-- The rules raise regular faults as long as the evaluations of parts do. -/
theorem regular_linked {level : Level}
    (hrun : ∀ env v operands, regular.Rel (level.run env v operands) (level.run env v operands)) :
    regular.Linked level level where
  run := hrun
  raise h := regular_raise level h
  report e := by
    unfold Level.report
    split
    · split
      · intro s f s' h
        cases h
        exact Fault.isRegular_of_isOrdinary (Fault.isOrdinary_ofWriteError _)
      · exact regular.modifyGet _
    · exact regular.pure ()
  compute p args := by
    cases h : p.compute level.depth args with
    | ok v => exact regular.pure v
    | error f => exact regular_raise level (Native.isOrdinary_of_compute h)

theorem Linked.regular_call {level : Level} (h : regular.Linked level level) {formals : Value}
    (hformals : formals.checkFormals = .ok ()) (env : Env) (body : Value) (captured : TableId)
    (operands : Value) :
    regular.Rel (Closure.run level env formals body captured operands)
      (Closure.run level env formals body captured operands) := by
  refine h.call env (fun parameters hitems parameter hmem frame v => ?_) body captured operands
  obtain ⟨x | xs, rfl⟩ := Value.checkFormals_eq_ok_iff.mp hformals
  · cases hitems
  · rw [Formals.properItems_each] at hitems
    cases hitems
    obtain ⟨x, -, rfl⟩ := List.mem_map.mp hmem
    exact regular.modifyGet _

/-- A rule raises a regular fault unless something is amiss before it. -/
theorem Linked.regular_step {level : Level} (h : regular.Linked level level) {env : Env}
    {v operands : Value} {s : EvalState}
    (hmoment : (Moment.entry env v operands s.store).isAmiss = false) {f : Fault} {s' : EvalState}
    (hstep : MiniScheme.step level env v operands s = .error f s') : f.isRegular = true := by
  cases v with
  | symbol x =>
    change EvalM.lookup env x s = .error f s' at hstep
    rw [EvalM.lookup_eq] at hstep
    cases hget : s.store.get? env x with
    | some v => rw [hget] at hstep; cases hstep
    | none =>
      rw [hget] at hstep
      cases hstep
      simpa [Moment.isAmiss, hget, Fault.isRegular] using hmoment
  | closure formals body captured =>
    have hformals : formals.checkFormals = .ok () := by
      cases hcheck : formals.checkFormals with
      | ok u => rfl
      | error g => simp [Moment.isAmiss, hcheck, Except.isOk, Except.toBool] at hmoment
    exact h.regular_call hformals env body captured operands s f s' hstep
  | _ => exact h.step env operands (by simp) (by simp) s f s' hstep

end Congruence

/-- Evaluation that is stopped before anything is amiss ends in regular faults only. -/
theorem Level.watched_regular (traced : Bool) (depth : Nat) :
    Congruence.regular.Linked (.watched ⟨Moment.isAmiss, .tooDeep⟩ traced depth)
      (.watched ⟨Moment.isAmiss, .tooDeep⟩ traced depth) := by
  induction depth with
  | zero =>
    refine Congruence.regular_linked fun env v operands s f s' h => ?_
    cases h
    rfl
  | succ depth ih =>
    refine Congruence.regular_linked fun env v operands s f s' h => ?_
    change watch ⟨Moment.isAmiss, .tooDeep⟩ traced (depth + 1) env v operands s = .error f s' at h
    rw [watch_succ] at h
    cases hmoment : (Moment.entry env v operands s.store).isAmiss with
    | true =>
      rw [if_pos hmoment] at h
      cases h
      rfl
    | false =>
      rw [if_neg (by simp [hmoment])] at h
      cases hstep : step (.watched ⟨Moment.isAmiss, .tooDeep⟩ traced depth) env v operands s with
      | ok answer s₁ => rw [hstep] at h; cases h
      | error g s₁ =>
        rw [hstep] at h
        cases h
        exact ih.regular_step hmoment hstep

end MiniScheme
