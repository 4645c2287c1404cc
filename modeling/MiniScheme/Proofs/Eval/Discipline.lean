import MiniScheme.Proofs.Eval.Watch
import MiniScheme.Proofs.Store.Chain

/-!
# Disciplines of evaluation

A discipline says which stores, closures and environments may occur in the course of an evaluation.
It is relative to a world, which may grow as the evaluation goes on. Each of the few ways in which
the rules of evaluation change the store or make an environment is one condition of the discipline;
that the values in the tables are in order then comes for free.

Computations are compared in pairs: the same one under two alarms, of which the second rings at
fewer moments. One proof about the rules thus says that the discipline is kept, and also what the
moment at which an evaluation is stopped has to do with the end of the evaluation that goes on.

## Main definitions

* `Discipline`: the conditions.
* `Discipline.Keeps`: a store in order, with values in order.
* `Discipline.Tracks`: one computation under two alarms.

## Main statements

* `Discipline.Tracks.bind`: computations one after the other.
-/

namespace MiniScheme

/-! ## Access to the store -/

theorem EvalM.lookup_eq (env : Env) (x : String) (s : EvalState) :
    EvalM.lookup env x s = match s.store.get? env x with
      | some v => .ok v s
      | none => .error (.unresolved x) s := by
  change (match s.store.get? env x with
    | some v => pure v
    | none => throw (.unresolved x) : EvalM Value) s = _
  cases s.store.get? env x <;> rfl

theorem EvalM.assign_eq (env : Env) (x : String) (v : Value) (s : EvalState) :
    EvalM.assign env x v s = match s.store.find? env x with
      | some id => .ok () { s with store := s.store.define id x v }
      | none => .error (.setUnbound x) s := by
  change (match s.store.find? env x with
    | some id => EvalM.define id x v
    | none => throw (.setUnbound x) : EvalM Unit) s = _
  cases s.store.find? env x <;> rfl

/-! ## Values -/

namespace Value

/-- The closures inside a value, also those inside other closures. -/
def closures : Value → List Value
  | pair left right => left.closures ++ right.closures
  | quoted v => v.closures
  | closure formals body captured =>
    closure formals body captured :: (formals.closures ++ body.closures)
  | _ => []

theorem chain_of_properItems {v : Value} {vs : List Value} (h : v.properItems = .ok vs) :
    v = chain vs nil := by
  unfold properItems at h
  cases hv : v.items with
  | error last =>
    rw [hv] at h
    cases h
  | ok us =>
    rw [hv] at h
    cases h
    exact chain_of_items hv

theorem closures_chain_nil (vs : List Value) : (chain vs nil).closures = vs.flatMap closures := by
  induction vs with
  | nil => rfl
  | cons v vs ih => simp [closures, ih]

end Value

/-! ## Disciplines -/

/-- What may occur in an evaluation. -/
structure Discipline where
  /-- The worlds, which grow. -/
  World : Type
  le : World → World → Prop
  le_refl : ∀ w, le w w
  le_trans : ∀ {w₁ w₂ w₃}, le w₁ w₂ → le w₂ w₃ → le w₁ w₃
  /-- The stores, apart from the values in them. -/
  store : World → Store → Prop
  closure : World → (formals body : Value) → (captured : TableId) → Prop
  env : World → Env → Prop
  /-- The places at which a scope may be filled. -/
  frame : World → TableId → Prop
  /-- The names that may be bound in the root. -/
  definable : String → Prop := fun _ => True
  /-- The names whose nearest bindings may be changed. -/
  assignable : World → Env → String → Prop := fun _ _ _ => True
  closure_mono : ∀ {w w' formals body captured}, le w w' → closure w formals body captured →
    closure w' formals body captured
  env_mono : ∀ {w w' e}, le w w' → env w e → env w' e
  frame_mono : ∀ {w w' id}, le w w' → frame w id → frame w' id
  assignable_mono : ∀ {w w' e x}, le w w' → assignable w e x → assignable w' e x := by
    exact fun _ _ => trivial
  /-- A scope is opened. -/
  opens : ∀ {w s}, store w s →
    ∃ w', le w w' ∧ store w' (s.allocate .empty).2 ∧ frame w' s.tables.size
  /-- A parameter or a local name is bound. -/
  fills : ∀ {w s id} (x : String) (v : Value), store w s → frame w id →
    ∃ w', le w w' ∧ store w' (s.define id x v)
  /-- A scope comes in front. -/
  encloses : ∀ {w e id}, env w e → frame w id → env w (e.push id)
  /-- The nearest binding is changed. -/
  assigns : ∀ {w s e id} {x : String} (v : Value), assignable w e x → store w s → env w e →
    s.find? e x = some id → ∃ w', le w w' ∧ store w' (s.define id x v)
  /-- A name is bound in the root. -/
  defines : ∀ {w s e} {x : String} (v : Value), definable x → store w s → env w e →
    ∃ w', le w w' ∧ store w' (s.define e.root x v)
  /-- A closure is made. -/
  captures : ∀ {w s e} {formals body : Value} {es : List Value}, store w s → env w e →
    formals.checkFormals = .ok () → body.properItems = .ok es →
    ∃ w', le w w' ∧ store w' (s.allocate (s.collapse e)).2 ∧
      closure w' formals body s.tables.size

namespace Discipline

variable (D : Discipline)

def Allows (w : D.World) (v : Value) : Prop :=
  ∀ formals body captured, .closure formals body captured ∈ v.closures →
    D.closure w formals body captured

structure Keeps (w : D.World) (s : Store) : Prop where
  store : D.store w s
  values : ∀ {id : TableId} {x : String} {v : Value}, (s.table id).get? x = some v → D.Allows w v

def Admits (w : D.World) : Moment → Prop
  | .entry env v operands _ => D.env w env ∧ D.Allows w v ∧ D.Allows w operands
  | .result v _ => D.Allows w v

variable {D} {w w' : D.World}

/-! ## Values that may occur -/

theorem Allows.mono {v : Value} (h : D.Allows w v) (hle : D.le w w') : D.Allows w' v :=
  fun formals body captured hmem => D.closure_mono hle (h formals body captured hmem)

theorem allows_of_closures_eq_nil {v : Value} (h : v.closures = []) : D.Allows w v := by
  intro formals body captured hmem
  simp [h] at hmem

@[simp] theorem allows_pair {left right : Value} :
    D.Allows w (.pair left right) ↔ D.Allows w left ∧ D.Allows w right := by
  simp only [Allows, Value.closures, List.mem_append]
  grind

theorem allows_closure {formals body : Value} {captured : TableId} :
    D.Allows w (.closure formals body captured) ↔
      D.closure w formals body captured ∧ D.Allows w formals ∧ D.Allows w body := by
  simp only [Allows, Value.closures, List.mem_cons, List.mem_append]
  grind

theorem allows_of_mem_properItems {v : Value} {vs : List Value} (h : D.Allows w v)
    (hitems : v.properItems = .ok vs) : ∀ u ∈ vs, D.Allows w u := by
  intro u hu formals body captured hmem
  apply h
  rw [Value.chain_of_properItems hitems, Value.closures_chain_nil, List.mem_flatMap]
  exact ⟨u, hu, hmem⟩

/-! ## Changing the store -/

theorem Keeps.values_define {s : Store} {id : TableId} {x : String} {v : Value}
    (h : D.Keeps w s) (hv : D.Allows w v) (hle : D.le w w')
    (hstore : D.store w' (s.define id x v)) : D.Keeps w' (s.define id x v) := by
  refine ⟨hstore, fun hget => ?_⟩
  rcases Store.get?_table_define hget with rfl | hold
  · exact hv.mono hle
  · exact (h.values hold).mono hle

theorem Keeps.values_allocate {s : Store} {t : Table} (h : D.Keeps w s)
    (ht : ∀ {x : String} {v : Value}, t.get? x = some v → D.Allows w v) (hle : D.le w w')
    (hstore : D.store w' (s.allocate t).2) : D.Keeps w' (s.allocate t).2 := by
  refine ⟨hstore, fun hget => ?_⟩
  rw [Store.table_allocate] at hget
  split at hget
  · exact (ht hget).mono hle
  · exact (h.values hget).mono hle

theorem Keeps.allows_get? {s : Store} (h : D.Keeps w s) {e : Env} {x : String} {v : Value}
    (hget : s.get? e x = some v) : D.Allows w v := by
  obtain ⟨id, hid⟩ := Store.exists_get?_of_get? hget
  exact h.values hid

theorem Keeps.opens {s : Store} (h : D.Keeps w s) :
    ∃ w', D.le w w' ∧ D.Keeps w' (s.allocate .empty).2 ∧ D.frame w' s.tables.size := by
  obtain ⟨w', hle, hstore, hframe⟩ := D.opens h.store
  exact ⟨w', hle, h.values_allocate (by simp) hle hstore, hframe⟩

theorem Keeps.fills {s : Store} (h : D.Keeps w s) {id : TableId} (hframe : D.frame w id)
    (x : String) {v : Value} (hv : D.Allows w v) :
    ∃ w', D.le w w' ∧ D.Keeps w' (s.define id x v) := by
  obtain ⟨w', hle, hstore⟩ := D.fills x v h.store hframe
  exact ⟨w', hle, h.values_define hv hle hstore⟩

theorem Keeps.assigns {s : Store} (h : D.Keeps w s) {e : Env} (henv : D.env w e) {id : TableId}
    {x : String} (hx : D.assignable w e x) (hfind : s.find? e x = some id) {v : Value}
    (hv : D.Allows w v) : ∃ w', D.le w w' ∧ D.Keeps w' (s.define id x v) := by
  obtain ⟨w', hle, hstore⟩ := D.assigns v hx h.store henv hfind
  exact ⟨w', hle, h.values_define hv hle hstore⟩

theorem Keeps.defines {s : Store} (h : D.Keeps w s) {e : Env} (henv : D.env w e)
    {x : String} (hx : D.definable x) {v : Value} (hv : D.Allows w v) :
    ∃ w', D.le w w' ∧ D.Keeps w' (s.define e.root x v) := by
  obtain ⟨w', hle, hstore⟩ := D.defines v hx h.store henv
  exact ⟨w', hle, h.values_define hv hle hstore⟩

theorem Keeps.captures {s : Store} (h : D.Keeps w s) {e : Env} (henv : D.env w e)
    {formals body : Value} {es : List Value} (hformals : formals.checkFormals = .ok ())
    (hbody : body.properItems = .ok es) :
    ∃ w', D.le w w' ∧ D.Keeps w' (s.allocate (s.collapse e)).2 ∧
      D.closure w' formals body s.tables.size := by
  obtain ⟨w', hle, hstore, hclosure⟩ := D.captures h.store henv hformals hbody
  refine ⟨w', hle, h.values_allocate (fun hget => ?_) hle hstore, hclosure⟩
  rw [Store.get?_collapse] at hget
  exact h.allows_get? hget

/-! ## Computations -/

section Outcomes

variable {α β : Type}

/-- How a computation may end: in a later world, and with a good value if it has one. -/
inductive Ends (good : D.World → α → Prop) (w : D.World) :
    EStateM.Result Fault EvalState α → Prop where
  | ok {w' : D.World} {v : α} {s : EvalState} (hle : D.le w w') (hs : D.Keeps w' s.store)
      (hv : good w' v) : Ends good w (.ok v s)
  | error {w' : D.World} {f : Fault} {s : EvalState} (hle : D.le w w')
      (hs : D.Keeps w' s.store) : Ends good w (.error f s)

/-- How a computation ends under two alarms: in the same way, unless the first one has stopped it.
Then it was stopped at a moment that may occur, and it goes on from there under the second one,
unless this one rings at the moment too. -/
inductive Follows (a b : Alarm) (good : D.World → α → Prop) (w : D.World) :
    (r₁ r₂ : EStateM.Result Fault EvalState α) → Prop where
  | same {r : EStateM.Result Fault EvalState α} (h : Ends good w r) : Follows a b good w r r
  | stopped {w₁ : D.World} {m : Moment} {s₁ : EvalState} {r : EStateM.Result Fault EvalState α}
      (hpick : a.picks m = true) (hstore : m.store = s₁.store) (hle : D.le w w₁)
      (hs : D.Keeps w₁ s₁.store) (hm : D.Admits w₁ m)
      (hb : b.picks m = true → r = .error b.fault s₁) (hr : Ends good w₁ r) :
      Follows a b good w (.error a.fault s₁) r

theorem Ends.mono {good : D.World → α → Prop} {r : EStateM.Result Fault EvalState α}
    (h : Ends good w' r) (hle : D.le w w') : Ends good w r := by
  cases h with
  | ok hle' hs hv => exact .ok (D.le_trans hle hle') hs hv
  | error hle' hs => exact .error (D.le_trans hle hle') hs

theorem Ends.final {good : D.World → α → Prop} {r : EStateM.Result Fault EvalState α}
    (h : Ends good w r) :
    ∃ w', D.le w w' ∧ D.Keeps w' (finalState r).store ∧ ∀ v s, r = .ok v s → good w' v := by
  cases h with
  | ok hle hs hv =>
    refine ⟨_, hle, hs, ?_⟩
    rintro v s ⟨⟩
    exact hv
  | error hle hs => exact ⟨_, hle, hs, by simp⟩

variable {a b : Alarm} {good : D.World → α → Prop} {good' : D.World → β → Prop}

theorem Follows.mono {r₁ r₂ : EStateM.Result Fault EvalState α} (h : Follows a b good w' r₁ r₂)
    (hle : D.le w w') : Follows a b good w r₁ r₂ := by
  cases h with
  | same h => exact .same (h.mono hle)
  | stopped hpick hstore hle' hs hm hb hr =>
    exact .stopped hpick hstore (D.le_trans hle hle') hs hm hb hr

theorem Follows.ends {r₁ r₂ : EStateM.Result Fault EvalState α} (h : Follows a b good w r₁ r₂) :
    Ends good w r₂ := by
  cases h with
  | same h => exact h
  | stopped hpick hstore hle hs hm hb hr => exact hr.mono hle

/-- Two computations, which are one under two alarms, from the states that are in order. -/
def Tracks (a b : Alarm) (w : D.World) (x y : EvalM α) (good : D.World → α → Prop) : Prop :=
  ∀ s : EvalState, D.Keeps w s.store → Follows a b good w (x s) (y s)

theorem Tracks.of_ends {x : EvalM α} (h : ∀ s : EvalState, D.Keeps w s.store → Ends good w (x s)) :
    Tracks a b w x x good :=
  fun s hs => .same (h s hs)

theorem Tracks.pure {v : α} (h : good w v) : Tracks a b w (pure v) (pure v) good :=
  .of_ends fun _ hs => .ok (D.le_refl w) hs h

theorem Tracks.throw (f : Fault) : Tracks a b w (throw f : EvalM α) (throw f) good :=
  .of_ends fun _ hs => .error (D.le_refl w) hs

/-- One computation after another. -/
theorem Tracks.bind {x y : EvalM α} {k l : α → EvalM β} (h : Tracks a b w x y good)
    (hk : ∀ w' v, D.le w w' → good w' v → Tracks a b w' (k v) (l v) good') :
    Tracks a b w (x >>= k) (y >>= l) good' := by
  intro s hs
  have hfirst := h s hs
  simp only [Bind.bind, EStateM.bind]
  generalize x s = r₁ at hfirst ⊢
  generalize y s = r₂ at hfirst ⊢
  cases hfirst with
  | same hends =>
    cases hends with
    | ok hle hs' hv => exact (hk _ _ hle hv _ hs').mono hle
    | error hle hs' => exact .same (.error hle hs')
  | stopped hpick hstore hle hs₁ hm hb hr =>
    cases hr with
    | error hle' hs' =>
      refine .stopped hpick hstore hle hs₁ hm (fun hring => ?_) (.error hle' hs')
      cases hb hring
      rfl
    | ok hle' hs' hv =>
      -- the second alarm does not ring, and the computation goes on
      have hrest := (hk _ _ (D.le_trans hle hle') hv _ hs').ends
      refine .stopped hpick hstore hle hs₁ hm (fun hring => ?_) (hrest.mono hle')
      cases hb hring

end Outcomes

end Discipline

end MiniScheme
