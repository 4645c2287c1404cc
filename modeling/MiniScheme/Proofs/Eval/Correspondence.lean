import MiniScheme.Proofs.Eval.Outcome
import MiniScheme.Proofs.Store.Renaming

/-!
# Evaluation in corresponding states

Two evaluations of the same expression go the same way if they start from states that match under a
renaming. What one of them adds to its store corresponds, table by table, to what the other one adds
to its own. Whatever the renaming does not speak of is neither read nor changed.

This is shown rule by rule, and for evaluation as a whole by induction on the depth.

## Main definitions

* `Correspondence`: two states to start from, and a renaming that knows the places to come.
* `Correspondence.Holds`: what two later states have in common.
* `Correspondence.Agree`: two computations that keep it, and end alike.

## Main statements

* `Correspondence.respects`: evaluation with any depth.
* `Correspondence.Respects.evaluateForms`: expressions in turn.
-/

namespace MiniScheme

def finalAnswer {α : Type} : EStateM.Result Fault EvalState α → Except Fault α
  | .ok v _ => .ok v
  | .error f _ => .error f

/-- Two states from which evaluations start, and a renaming under which the tables that are added to
them correspond in turn. -/
structure Correspondence extends Renaming where
  left : EvalState
  right : EvalState
  fresh : ∀ k, place (left.store.tables.size + k) (right.store.tables.size + k)

namespace Correspondence

variable (c : Correspondence)

/-- What two states have in common as the evaluations go on: as many tables have been added to both,
corresponding places hold the same tables, and all other tables are as they were. -/
structure Holds (s s' : EvalState) : Prop where
  added : ∃ k, s.store.tables.size = c.left.store.tables.size + k ∧
    s'.store.tables.size = c.right.store.tables.size + k
  tables : s.store.Matches c.toRenaming s'.store
  left : ∀ {i}, (∀ j, ¬ c.place i j) → s.store.table i = c.left.store.table i
  right : ∀ {j}, (∀ i, ¬ c.place i j) → s'.store.table j = c.right.store.table j
  installations_left : s.store.installations = c.left.store.installations
  installations_right : s'.store.installations = c.right.store.installations
  events : ∃ es es', s.events = es ++ c.left.events ∧ s'.events = es' ++ c.right.events ∧
    List.Forall₂ (Event.Same c.toRenaming) es es'

variable {c}

theorem holds_start (h : c.left.store.Matches c.toRenaming c.right.store) :
    c.Holds c.left c.right where
  added := ⟨0, rfl, rfl⟩
  tables := h
  left _ := rfl
  right _ := rfl
  installations_left := rfl
  installations_right := rfl
  events := ⟨[], [], rfl, rfl, .nil⟩

namespace Holds

variable {s s' : EvalState} (h : c.Holds s s') {i j : TableId}
include h

theorem place_size : c.place s.store.tables.size s'.store.tables.size := by
  obtain ⟨k, hk, hk'⟩ := h.added
  rw [hk, hk']
  exact c.fresh k

/-- Of two corresponding places, both or none are in use. -/
theorem lt_size_iff {i j : Nat} (hplace : c.place i j) :
    i < s.store.tables.size ↔ j < s'.store.tables.size := by
  obtain ⟨k, hk, hk'⟩ := h.added
  have hle : c.left.store.tables.size ≤ i → j = c.right.store.tables.size +
      (i - c.left.store.tables.size) := fun hi =>
    c.biUnique_place.2 hplace (by simpa [hi] using c.fresh (i - c.left.store.tables.size))
  have hle' : c.right.store.tables.size ≤ j → i = c.left.store.tables.size +
      (j - c.right.store.tables.size) := fun hj =>
    c.biUnique_place.1 hplace (by simpa [hj] using c.fresh (j - c.right.store.tables.size))
  omega

theorem define (hplace : c.place i j) (x : String) {v w : Value}
    (hv : v.Same c.toRenaming w) :
    c.Holds { s with store := s.store.define i x v }
      { s' with store := s'.store.define j x w } where
  added := by simpa using h.added
  tables i' j' hplace' := by
    have hiff : i' = i ↔ j' = j := Relator.rel_eq c.biUnique_place hplace' hplace
    by_cases hi : i < s.store.tables.size
    · have hj := (h.lt_size_iff hplace).mp hi
      rw [Store.table_define s.store i x v hi, Store.table_define s'.store j x w hj]
      simp only [hiff]
      split
      · exact (h.tables _ _ hplace).insert x hv
      · exact h.tables _ _ hplace'
    · have hj : ¬ j < s'.store.tables.size := fun hj => hi ((h.lt_size_iff hplace).mpr hj)
      rw [Store.define_of_size_le (Nat.le_of_not_lt hi),
        Store.define_of_size_le (Nat.le_of_not_lt hj)]
      exact h.tables _ _ hplace'
  left {i'} hi' := by
    have hne : i' ≠ i := fun heq => hi' j (heq ▸ hplace)
    exact (Store.table_define_of_ne hne x v).trans (h.left hi')
  right {j'} hj' := by
    have hne : j' ≠ j := fun heq => hj' i (heq ▸ hplace)
    exact (Store.table_define_of_ne hne x w).trans (h.right hj')
  installations_left := h.installations_left
  installations_right := h.installations_right
  events := h.events

theorem allocate {t u : Table} (ht : t.Same c.toRenaming u) :
    c.Holds { s with store := (s.store.allocate t).2 }
      { s' with store := (s'.store.allocate u).2 } where
  added := by
    obtain ⟨k, hk, hk'⟩ := h.added
    refine ⟨k + 1, ?_, ?_⟩
    · rw [Store.size_allocate, hk, Nat.add_assoc]
    · rw [Store.size_allocate, hk', Nat.add_assoc]
  tables i' j' hplace' := by
    have hiff := Relator.rel_eq c.biUnique_place hplace' h.place_size
    rw [Store.table_allocate, Store.table_allocate]
    simp only [hiff]
    split
    · exact ht
    · exact h.tables _ _ hplace'
  left {i'} hi' := by
    have hne : i' ≠ s.store.tables.size := fun heq => hi' _ (heq ▸ h.place_size)
    rw [Store.table_allocate, if_neg hne]
    exact h.left hi'
  right {j'} hj' := by
    have hne : j' ≠ s'.store.tables.size := fun heq => hj' _ (heq ▸ h.place_size)
    rw [Store.table_allocate, if_neg hne]
    exact h.right hj'
  installations_left := h.installations_left
  installations_right := h.installations_right
  events := h.events

theorem report {e e' : Event} (he : e.Same c.toRenaming e') :
    c.Holds { s with events := e :: s.events } { s' with events := e' :: s'.events } where
  added := h.added
  tables := h.tables
  left := h.left
  right := h.right
  installations_left := h.installations_left
  installations_right := h.installations_right
  events := by
    obtain ⟨es, es', hes, hes', hsame⟩ := h.events
    exact ⟨e :: es, e' :: es', by rw [hes]; rfl, by rw [hes']; rfl, .cons he hsame⟩

end Holds

/-! ## Computations -/

variable {α β α' β' : Type}

inductive Ends (c : Correspondence) (R : α → β → Prop) :
    EStateM.Result Fault EvalState α → EStateM.Result Fault EvalState β → Prop where
  | ok {v : α} {w : β} {s s' : EvalState} (hs : c.Holds s s') (hv : R v w) :
      Ends c R (.ok v s) (.ok w s')
  | error {f g : Fault} {s s' : EvalState} (hs : c.Holds s s') (hf : f.Same c.toRenaming g) :
      Ends c R (.error f s) (.error g s')

theorem Ends.final {R : α → β → Prop} {a : EStateM.Result Fault EvalState α}
    {b : EStateM.Result Fault EvalState β} (h : c.Ends R a b) :
    c.Holds (finalState a) (finalState b) ∧ c.Answers R (finalAnswer a) (finalAnswer b) := by
  cases h with
  | ok hs hv => exact ⟨hs, .ok hv⟩
  | error hs hf => exact ⟨hs, .error hf⟩

def Agree (c : Correspondence) (R : α → β → Prop) (x : EvalM α) (y : EvalM β) : Prop :=
  ∀ s s', c.Holds s s' → c.Ends R (x s) (y s')

namespace Agree

variable {R : α → β → Prop} {R' : α' → β' → Prop} {env env' : Env}

theorem pure {v : α} {w : β} (h : R v w) : c.Agree R (pure v) (pure w) :=
  fun _ _ hs => .ok hs h

theorem throw {f g : Fault} (h : f.Same c.toRenaming g) :
    c.Agree R (throw f : EvalM α) (throw g : EvalM β) :=
  fun _ _ hs => .error hs h

theorem bind {x : EvalM α} {y : EvalM β} {k : α → EvalM α'} {l : β → EvalM β'}
    (h : c.Agree R x y) (hk : ∀ v w, R v w → c.Agree R' (k v) (l w)) :
    c.Agree R' (x >>= k) (y >>= l) := by
  intro s s' hs
  have hfirst := h s s' hs
  simp only [Bind.bind, EStateM.bind]
  generalize x s = a at hfirst ⊢
  generalize y s' = b at hfirst ⊢
  cases hfirst with
  | ok hs' hv => exact hk _ _ hv _ _ hs'
  | error hs' hf => exact .error hs' hf

/-! ## The store -/

theorem lookup (henv : env.Same c.toRenaming env') (x : String) :
    c.Agree (Value.Same c.toRenaming) (EvalM.lookup env x) (EvalM.lookup env' x) := by
  intro s s' hs
  have hget := hs.tables.get? henv x
  rw [EvalM.lookup_eq, EvalM.lookup_eq]
  generalize s.store.get? env x = a at hget ⊢
  generalize s'.store.get? env' x = b at hget ⊢
  cases hget with
  | none => exact .error hs (.plain rfl)
  | some hv => exact .ok hs hv

theorem openScope :
    c.Agree c.place (EvalM.allocate .empty) (EvalM.allocate .empty) :=
  fun _ _ hs => .ok (hs.allocate .empty) hs.place_size

theorem define {i j : TableId} (hplace : c.place i j) (x : String) {v w : Value}
    (hv : v.Same c.toRenaming w) :
    c.Agree (fun _ _ => True) (EvalM.define i x v) (EvalM.define j x w) :=
  fun _ _ hs => .ok (hs.define hplace x hv) trivial

theorem assign (henv : env.Same c.toRenaming env') (x : String) {v w : Value}
    (hv : v.Same c.toRenaming w) :
    c.Agree (fun _ _ => True) (EvalM.assign env x v) (EvalM.assign env' x w) := by
  intro s s' hs
  have hfind := hs.tables.find? henv x
  rw [EvalM.assign_eq, EvalM.assign_eq]
  generalize s.store.find? env x = a at hfind ⊢
  generalize s'.store.find? env' x = b at hfind ⊢
  cases hfind with
  | none => exact .error hs (.plain rfl)
  | some hplace => exact .ok (hs.define hplace x hv) trivial

theorem capture (henv : env.Same c.toRenaming env') :
    c.Agree c.place (EvalM.capture env) (EvalM.capture env') :=
  fun _ _ hs => .ok (hs.allocate (hs.tables.collapse henv)) hs.place_size

/-! ## Levels -/

theorem raise (level : Level) {f g : Fault} (h : f.Same c.toRenaming g) :
    c.Agree R (level.raise f) (level.raise g) := .throw (h.worded level.depth)

theorem lift (level : Level) {x : Except Fault α} {y : Except Fault β}
    (h : c.Answers R x y) : c.Agree R (level.lift x) (level.lift y) := by
  cases h with
  | ok h => exact .pure h
  | error h => exact .raise level h

theorem items (level : Level) {v w : Value} (h : v.Same c.toRenaming w) :
    c.Agree (List.Forall₂ (Value.Same c.toRenaming)) (level.items v) (level.items w) :=
  .lift level h.properItems

theorem report (level : Level) {e e' : Event} (h : e.Same c.toRenaming e') :
    c.Agree (fun _ _ => True) (level.report e) (level.report e') := by
  unfold Level.report
  rw [h.obstacle?_eq]
  split
  · split
    · exact .throw (.ofWriteError _)
    · exact fun _ _ hs => .ok (hs.report h) trivial
  · exact .pure trivial

end Agree

def Respects (c : Correspondence) (level : Level) : Prop :=
  ∀ {env env' : Env} {v w operands operands' : Value}, env.Same c.toRenaming env' →
    v.Same c.toRenaming w → operands.Same c.toRenaming operands' →
    c.Agree (Value.Same c.toRenaming) (level.run env v operands) (level.run env' w operands')

namespace Respects

variable {level : Level} (h : c.Respects level) {env env' : Env} (henv : env.Same c.toRenaming env')
  {operands operands' : Value} {es es' : List Value}
include h henv

theorem evaluate {e e' : Value} (he : e.Same c.toRenaming e') :
    c.Agree (Value.Same c.toRenaming) (level.evaluate env e) (level.evaluate env' e') :=
  h henv he .nil

theorem apply {f g : Value} (hf : f.Same c.toRenaming g)
    (ho : operands.Same c.toRenaming operands') :
    c.Agree (Value.Same c.toRenaming) (level.apply env f operands)
      (level.apply env' g operands') := by
  unfold Level.apply
  rw [hf.isProcedure_eq]
  split
  · exact h henv hf ho
  · exact .raise level (.notAProcedure hf)

theorem evaluateAll (hes : List.Forall₂ (Value.Same c.toRenaming) es es') :
    c.Agree (List.Forall₂ (Value.Same c.toRenaming)) (level.evaluateAll env es)
      (level.evaluateAll env' es') := by
  induction hes with
  | nil => exact .pure .nil
  | cons he _ ih =>
    refine (h.evaluate henv he).bind fun v w hv => ?_
    refine ih.bind fun vs ws hvs => ?_
    exact .pure (.cons hv hvs)

theorem evaluateBody (hes : List.Forall₂ (Value.Same c.toRenaming) es es') :
    c.Agree (Value.Same c.toRenaming) (level.evaluateBody env es)
      (level.evaluateBody env' es') := by
  induction hes with
  | nil => exact .pure .nil
  | cons he hrest ih =>
    cases hrest with
    | nil => exact h.evaluate henv he
    | cons => exact (h.evaluate henv he).bind fun _ _ _ => ih

/-! ## Closures -/

omit h henv in
theorem bindParameter {i j : TableId} (hplace : c.place i j)
    {parameter parameter' v w : Value} (hp : parameter.Same c.toRenaming parameter')
    (hv : v.Same c.toRenaming w) :
    c.Agree (fun _ _ => True) (Closure.bindParameter level i parameter v)
      (Closure.bindParameter level j parameter' w) := by
  have hp' := hp
  cases hp with
  | symbol x => exact .define hplace x hv
  | _ => exact .raise level (.bindNonSymbol hp')

theorem bindEach {i j : TableId} (hplace : c.place i j) {ps ps' : List Value}
    (hps : List.Forall₂ (Value.Same c.toRenaming) ps ps')
    (hes : List.Forall₂ (Value.Same c.toRenaming) es es') :
    c.Agree (fun _ _ => True) (Closure.bindEach level env i ps es)
      (Closure.bindEach level env' j ps' es') := by
  induction hps generalizing es es' with
  | nil => exact .pure trivial
  | cons hp _ ih =>
    cases hes with
    | nil => exact .pure trivial
    | cons he hes =>
      refine (h.evaluate henv he).bind fun v w hv => ?_
      refine (Agree.report level (.binding hp hv)).bind fun _ _ _ => ?_
      refine (bindParameter hplace hp hv).bind fun _ _ _ => ?_
      exact ih hes

theorem bind {i j : TableId} (hplace : c.place i j) {formals formals' : Value}
    (hf : formals.Same c.toRenaming formals') (ho : operands.Same c.toRenaming operands') :
    c.Agree (fun _ _ => True) (Closure.bind level env i formals operands)
      (Closure.bind level env' j formals' operands') := by
  have hchain : c.Agree (fun _ _ => True)
      (do
        let parameters ← level.items formals
        let es ← level.items operands
        if parameters.length = es.length then Closure.bindEach level env i parameters es
        else level.raise (.operandCount parameters.length es.length))
      (do
        let parameters ← level.items formals'
        let es ← level.items operands'
        if parameters.length = es.length then Closure.bindEach level env' j parameters es
        else level.raise (.operandCount parameters.length es.length)) := by
    refine (Agree.items level hf).bind fun ps ps' hps => ?_
    refine (Agree.items level ho).bind fun es es' hes => ?_
    rw [hps.length_eq, hes.length_eq]
    split
    · exact h.bindEach henv hplace hps hes
    · exact .raise level (.plain rfl)
  cases hf with
  | symbol x =>
    refine (Agree.report level (.bindingOperands x ho)).bind fun _ _ _ => ?_
    exact .define hplace x ho
  | _ => exact hchain

theorem call {formals formals' body body' : Value} {i j : TableId}
    (hf : formals.Same c.toRenaming formals') (hb : body.Same c.toRenaming body')
    (hplace : c.place i j) (ho : operands.Same c.toRenaming operands') :
    c.Agree (Value.Same c.toRenaming) (Closure.run level env formals body i operands)
      (Closure.run level env' formals' body' j operands') := by
  refine Agree.openScope.bind fun frame frame' hframe => ?_
  refine (h.bind henv hframe hf ho).bind fun _ _ _ => ?_
  refine (Agree.items level hb).bind fun es es' hes => ?_
  exact h.evaluateBody ((henv.push hplace).push hframe) hes

/-! ## Forms -/

theorem runDefine (ho : operands.Same c.toRenaming operands') :
    c.Agree (Value.Same c.toRenaming) (Form.runDefine level env operands)
      (Form.runDefine level env' operands') := by
  refine (Agree.items level ho).bind fun es es' hes => ?_
  rcases hes with _ | ⟨ht, _ | ⟨he, _ | ⟨_, _⟩⟩⟩
  · exact .raise level (.plain rfl)
  · cases ht <;> exact .raise level (.plain rfl)
  · have ht' := ht
    cases ht with
    | symbol x =>
      refine (h.evaluate henv he).bind fun v w hv => ?_
      refine (Agree.define henv.root x hv).bind fun _ _ _ => ?_
      exact .pure hv
    | _ => exact .raise level (.defineTarget ht')
  · cases ht <;> exact .raise level (.plain rfl)

theorem runAssign (ho : operands.Same c.toRenaming operands') :
    c.Agree (Value.Same c.toRenaming) (Form.runAssign level env operands)
      (Form.runAssign level env' operands') := by
  refine (Agree.items level ho).bind fun es es' hes => ?_
  rcases hes with _ | ⟨ht, _ | ⟨he, _ | ⟨_, _⟩⟩⟩
  · exact .raise level (.plain rfl)
  · cases ht <;> exact .raise level (.plain rfl)
  · have ht' := ht
    cases ht with
    | symbol x =>
      refine (h.evaluate henv he).bind fun v w hv => ?_
      refine (Agree.assign henv x hv).bind fun _ _ _ => ?_
      exact .pure hv
    | _ => exact .raise level (.assignTarget ht')
  · cases ht <;> exact .raise level (.plain rfl)

theorem condition {e e' : Value} (he : e.Same c.toRenaming e') :
    c.Agree Eq (Form.condition level env e) (Form.condition level env' e') := by
  refine (h.evaluate henv he).bind fun v w hv => ?_
  have hv' := hv
  cases hv with
  | boolean b => exact .pure rfl
  | _ => exact .raise level (.branchCondition hv')

theorem runBranch (ho : operands.Same c.toRenaming operands') :
    c.Agree (Value.Same c.toRenaming) (Form.runBranch level env operands)
      (Form.runBranch level env' operands') := by
  refine (Agree.items level ho).bind fun es es' hes => ?_
  rcases hes with _ | ⟨he, _ | ⟨hconsequent, _ | ⟨halternative, _ | ⟨_, _⟩⟩⟩⟩
  · exact .raise level (.plain rfl)
  · exact .raise level (.plain rfl)
  · refine (h.condition henv he).bind ?_
    rintro answer _ rfl
    split
    · exact h.evaluate henv hconsequent
    · exact .pure .nil
  · refine (h.condition henv he).bind ?_
    rintro answer _ rfl
    split
    · exact h.evaluate henv hconsequent
    · exact h.evaluate henv halternative
  · exact .raise level (.plain rfl)

omit h in
theorem runLambda (ho : operands.Same c.toRenaming operands') :
    c.Agree (Value.Same c.toRenaming) (Form.runLambda level env operands)
      (Form.runLambda level env' operands') := by
  cases ho with
  | pair hf hb =>
    refine (Agree.lift level hf.checkFormals).bind fun _ _ _ => ?_
    refine (Agree.items level hb).bind fun _ _ _ => ?_
    refine (Agree.capture henv).bind fun i j hplace => ?_
    exact .pure (.closure hf hb hplace)
  | _ => exact .raise level (.plain rfl)

theorem bindInitialisers {i j : TableId} (hplace : c.place i j)
    (hes : List.Forall₂ (Value.Same c.toRenaming) es es') :
    c.Agree (fun _ _ => True) (Form.bindInitialisers level env i es)
      (Form.bindInitialisers level env' j es') := by
  induction hes with
  | nil => exact .pure trivial
  | cons hentry _ ih =>
    refine (Agree.items level hentry).bind fun parts parts' hparts => ?_
    rcases hparts with _ | ⟨hname, _ | ⟨he, _ | ⟨_, _⟩⟩⟩
    · exact .raise level (.bindingShape hentry)
    · cases hname <;> exact .raise level (.bindingShape hentry)
    · have hname' := hname
      cases hname with
      | symbol x =>
        refine (h.evaluate henv he).bind fun v w hv => ?_
        refine (Agree.define hplace x hv).bind fun _ _ _ => ?_
        exact ih
      | _ => exact .raise level (.bindingName hname')
    · cases hname <;> exact .raise level (.bindingShape hentry)

theorem runBinding (ho : operands.Same c.toRenaming operands') :
    c.Agree (Value.Same c.toRenaming) (Form.runBinding level env operands)
      (Form.runBinding level env' operands') := by
  cases ho with
  | pair hentries hbody =>
    refine Agree.openScope.bind fun frame frame' hframe => ?_
    refine (Agree.items level hentries).bind fun es es' hes => ?_
    refine (h.bindInitialisers henv hframe hes).bind fun _ _ _ => ?_
    refine (Agree.items level hbody).bind fun forms forms' hforms => ?_
    exact h.evaluateBody (henv.push hframe) hforms
  | _ => exact .raise level (.plain rfl)

omit h henv in
theorem fires_eq {v w : Value} (hv : v.Same c.toRenaming w) : Form.fires v = Form.fires w := by
  cases hv <;> simp [Form.fires]

theorem tryClauses (hes : List.Forall₂ (Value.Same c.toRenaming) es es') :
    c.Agree (Value.Same c.toRenaming) (Form.tryClauses level env es)
      (Form.tryClauses level env' es') := by
  induction hes with
  | nil => exact .pure .nil
  | cons hclause _ ih =>
    refine (Agree.items level hclause).bind fun parts parts' hparts => ?_
    cases hparts with
    | nil => exact .raise level (.plain rfl)
    | cons htest hbody =>
      refine (h.evaluate henv htest).bind fun v w hv => ?_
      rw [fires_eq hv]
      split
      · cases hbody with
        | nil => exact .pure hv
        | cons he hrest => exact h.evaluateBody henv (.cons he hrest)
      · exact ih

theorem allTrue {last last' : Value} (hlast : last.Same c.toRenaming last')
    (hes : List.Forall₂ (Value.Same c.toRenaming) es es') :
    c.Agree (Value.Same c.toRenaming) (Form.allTrue level env last es)
      (Form.allTrue level env' last' es') := by
  induction hes generalizing last last' with
  | nil => exact .pure hlast
  | cons he _ ih =>
    refine (h.evaluate henv he).bind fun v w hv => ?_
    simp only [hv.eq_boolean_iff]
    split
    · exact .pure hv
    · exact ih hv

theorem anyTrue (hes : List.Forall₂ (Value.Same c.toRenaming) es es') :
    c.Agree (Value.Same c.toRenaming) (Form.anyTrue level env es)
      (Form.anyTrue level env' es') := by
  induction hes with
  | nil => exact .pure (.boolean false)
  | cons he _ ih =>
    refine (h.evaluate henv he).bind fun v w hv => ?_
    simp only [hv.eq_boolean_iff]
    split
    · exact ih
    · exact .pure hv

omit h henv in
theorem runQuote (ho : operands.Same c.toRenaming operands') :
    c.Agree (Value.Same c.toRenaming) (Form.runQuote level operands)
      (Form.runQuote level operands') := by
  refine (Agree.items level ho).bind fun es es' hes => ?_
  rcases hes with _ | ⟨he, _ | ⟨_, _⟩⟩
  · exact .raise level (.plain rfl)
  · exact .pure he
  · exact .raise level (.plain rfl)

theorem runForm (f : Form) (ho : operands.Same c.toRenaming operands') :
    c.Agree (Value.Same c.toRenaming) (f.run level env operands) (f.run level env' operands') := by
  cases f with
  | define => exact h.runDefine henv ho
  | branch => exact h.runBranch henv ho
  | lambda => exact runLambda henv ho
  | binding => exact h.runBinding henv ho
  | cond => exact (Agree.items level ho).bind fun _ _ hes => h.tryClauses henv hes
  | conjunction =>
    exact (Agree.items level ho).bind fun _ _ hes => h.allTrue henv (.boolean true) hes
  | disjunction => exact (Agree.items level ho).bind fun _ _ hes => h.anyTrue henv hes
  | quote => exact runQuote ho
  | assign => exact h.runAssign henv ho

/-! ## Natives -/

theorem runNative (p : Native) (ho : operands.Same c.toRenaming operands') :
    c.Agree (Value.Same c.toRenaming) (p.run level env operands) (p.run level env' operands') := by
  refine (Agree.items level ho).bind fun es es' hes => ?_
  refine (h.evaluateAll henv hes).bind fun args args' hargs => ?_
  have hcompute : c.Agree (Value.Same c.toRenaming) (level.lift (p.compute level.depth args))
      (level.lift (p.compute level.depth args')) :=
    .lift level (Native.answers_compute level.depth p hargs)
  cases p with
  | apply =>
    rcases hargs with _ | ⟨hf, _ | ⟨hrest, _ | ⟨_, _⟩⟩⟩
    · exact hcompute
    · exact hcompute
    · exact h.apply henv hf hrest
    · exact hcompute
  | _ => exact hcompute

/-! ## One step -/

/-- One rule of evaluation. -/
theorem step {v w : Value} (hv : v.Same c.toRenaming w)
    (ho : operands.Same c.toRenaming operands') :
    c.Agree (Value.Same c.toRenaming) (MiniScheme.step level env v operands)
      (MiniScheme.step level env' w operands') := by
  have hv' := hv
  cases hv with
  | nil | integer | boolean | string | elseMarker => exact .pure hv'
  | symbol x => exact .lookup henv x
  | quoted he => exact .pure he
  | pair hleft hright =>
    refine (Agree.report level (.applying hleft hright)).bind fun _ _ _ => ?_
    dsimp only
    rw [hleft.isProcedure_eq]
    split
    · refine (Agree.pure hleft).bind fun f g hf => ?_
      exact h.apply henv hf hright
    · refine (h.evaluate henv hleft).bind fun f g hf => ?_
      exact h.apply henv hf hright
  | form f hinstallation => exact h.runForm henv f ho
  | native p hinstallation => exact h.runNative henv p ho
  | closure hf hb hplace => exact h.call henv hf hb hplace ho

/-- Expressions one after the other. -/
theorem evaluateForms {last last' : Value} (hlast : last.Same c.toRenaming last')
    (hes : List.Forall₂ (Value.Same c.toRenaming) es es') :
    c.Agree (Value.Same c.toRenaming) (Session.evaluateForms level env last es)
      (Session.evaluateForms level env' last' es') := by
  induction hes generalizing last last' with
  | nil => exact .pure hlast
  | cons he _ ih =>
    refine (Agree.report level (.read he)).bind fun _ _ _ => ?_
    refine (h.evaluate henv he).bind fun v w hv => ?_
    refine (Agree.report level (.evaluated hv)).bind fun _ _ _ => ?_
    exact ih hv

end Respects

/-- Evaluation goes the same way in corresponding states. -/
theorem respects (c : Correspondence) (traced : Bool) (depth : Nat) :
    c.Respects (.ofDepth traced depth) := by
  induction depth with
  | zero => exact fun _ _ _ => .throw (.plain rfl)
  | succ depth ih => exact fun henv hv ho => ih.step henv hv ho

end Correspondence

end MiniScheme
