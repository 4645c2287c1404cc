import MiniScheme.Proofs.Session.Capture
import MiniScheme.Proofs.Session.Mirror

/-!
# Scopes that are being filled

A `let` opens its scope first and then binds each name as soon as its initialiser has a value; a
call does the same with its operands. Nothing that is evaluated meanwhile can get hold of the scope.
So it makes no difference, but for the places of tables, if all values are computed first, and then
a scope with all bindings is opened at once.

## Main definitions

* `Phases.runBinding`, `Phases.call`: a `let` and a call in two phases.
* `Store.Grounds`: whatever is referred to is there.
* `Phases.Pending`: a scope that is being filled, and a store that does not have it yet.
* `Phases.SameOutcome`: the same, but for the places of new tables.

## Main statements

* `Phases.Fills.bindInitialisers`, `Phases.Fills.bindEach`: filling a scope, step by step.
* `Phases.Pending.apart_eval`: what is evaluated meanwhile neither reads nor changes the scope.
* `filling_unobservable`: both ways come to the same.
-/

namespace MiniScheme

/-! ## Two phases -/

namespace Phases

variable (level : Level) (env : Env)

/-- The bindings of a `let`: initialisers are evaluated from left to right, and the shape of each
entry is checked right before. -/
def initialisers : (entries : List Value) → EvalM (List (String × Value))
  | [] => pure []
  | entry :: entries => do
    match ← level.items entry with
    | [.symbol x, e] =>
      let v ← level.evaluate env e
      let bindings ← initialisers entries
      return (x, v) :: bindings
    | [name, _] => level.raise (.bindingName name)
    | _ => level.raise (.bindingShape entry)

def arguments : (xs : List String) → (operands : List Value) → EvalM (List (String × Value))
  | x :: xs, e :: es => do
    let v ← level.evaluate env e
    level.report (.binding (.symbol x) v)
    let bindings ← arguments xs es
    return (x, v) :: bindings
  | _, _ => pure []

def enter (outer : Env) (bindings : List (String × Value)) (body : Value) : EvalM Value := do
  let frame ← EvalM.allocate (Table.empty.insertAll bindings)
  level.evaluateBody (outer.push frame) (← level.items body)

def runBinding : (operands : Value) → EvalM Value
  | .pair entries body => do
    let bindings ← initialisers level env (← level.items entries)
    enter level env bindings body
  | _ => level.raise .bindingCount

def call (xs : List String) (body : Value) (captured : TableId) (operands : Value) :
    EvalM Value := do
  let es ← level.items operands
  if xs.length = es.length then
    let bindings ← arguments level env xs es
    enter level (env.push captured) bindings body
  else level.raise (.operandCount xs.length es.length)

end Phases

/-! ## What is there -/

/-- Nothing refers to a table that is not there: no closure that is bound or inside some values, and
no environment. -/
structure Store.Grounds (s : Store) (env : Env) (vs : List Value) : Prop where
  placed : s.Placed
  env : ∀ id ∈ env.tables, id < s.tables.size
  values : ∀ v ∈ vs, Discipline.placed.Allows s.tables.size v

/-- Nothing that a session comes to refers to a table that is not there. -/
theorem Process.Reached.grounds_of_enters {p : Process} (hp : p.Reached) {session : Session}
    (hmem : session ∈ p.sessions) {traced : Bool} {source : String} {env : Env}
    {v operands : Value} {s : EvalState}
    (h : Enters (session.program traced source p.world) ⟨p.world.store, []⟩ env v operands s) :
    s.store.Grounds env [v, operands] := by
  obtain ⟨l, hl⟩ := hp.ordered
  obtain ⟨n, -, hs, he, hv, ho⟩ := Discipline.keeps_of_enters (fun a =>
    (Snapshot.matched_nil (a := a) (by simp [Alarm.silent]) traced p.world.limit).program
      (hl.env_snapshots hmem (by simp)) source) (hl.keeps_snapshots (by simp) (by simp)) h
  have hlt {id : TableId} (hid : id < n) : id < s.store.tables.size :=
    Nat.lt_of_lt_of_le hid hs.store.1
  have hallows {u : Value} (hu : (Snapshot.discipline []).Allows n u) :
      Discipline.placed.Allows s.store.tables.size u :=
    fun formals body captured hclosure => hlt (hu formals body captured hclosure).1
  refine ⟨⟨fun hget hclosure => hlt (hs.values hget _ _ _ hclosure).1⟩,
    fun id hid => hlt (he id hid).1, List.forall_mem_cons.mpr ⟨hallows hv, ?_⟩⟩
  exact List.forall_mem_singleton.mpr (hallows ho)

/-! ## Renamings -/

namespace Renaming

theorem biUnique_aside (n : Nat) :
    Relator.BiUnique fun i j : Nat => i < n ∧ i = j ∨ n < i ∧ i = j + 1 :=
  ⟨fun i j k h h' => by omega, fun i j k h h' => by omega⟩

theorem biUnique_behind (n k : Nat) : Relator.BiUnique fun i j : Nat =>
    i < n ∧ i = j ∨ i = n ∧ j = n + k ∨ n < i ∧ i ≤ n + k ∧ i = j + 1 ∨ n + k < i ∧ i = j :=
  ⟨fun i j k h h' => by omega, fun i j k h h' => by omega⟩

/-- The renaming of the tables in a store that has one more at a place than another one. -/
def aside (n : Nat) : Renaming where
  place (i j : Nat) := i < n ∧ i = j ∨ n < i ∧ i = j + 1
  installation := Eq
  biUnique_place := biUnique_aside n
  biUnique_installation := biUnique_eq

/-- The renaming by which the table at a place comes after the next few ones. -/
def behind (n k : Nat) : Renaming where
  place (i j : Nat) := i < n ∧ i = j ∨ i = n ∧ j = n + k ∨ n < i ∧ i ≤ n + k ∧ i = j + 1 ∨
    n + k < i ∧ i = j
  installation := Eq
  biUnique_place := biUnique_behind n k
  biUnique_installation := biUnique_eq

variable {n : Nat}

theorem place_aside {i j : Nat} :
    (aside n).place i j ↔ i < n ∧ i = j ∨ n < i ∧ i = j + 1 := Iff.rfl

theorem place_behind {k i j : Nat} :
    (behind n k).place i j ↔ i < n ∧ i = j ∨ i = n ∧ j = n + k ∨ n < i ∧ i ≤ n + k ∧ i = j + 1 ∨
      n + k < i ∧ i = j := Iff.rfl

/-- A value that was there before is the same as itself. -/
theorem same_aside {v : Value} (h : Discipline.placed.Allows n v) : v.Same (aside n) v :=
  .refl (fun hmem => .inl ⟨h _ _ _ hmem, rfl⟩) fun _ => rfl

theorem same_behind {k : Nat} {v : Value} (h : Discipline.placed.Allows n v) :
    v.Same (behind n k) v :=
  .refl (fun hmem => .inl ⟨h _ _ _ hmem, rfl⟩) fun _ => rfl

/-- What is known of a place that is in use is known when the table comes after the others. -/
theorem place_behind_of_aside {k i j : Nat} (hi : i < n + 1 + k) (h : (aside n).place i j) :
    (behind n k).place i j := by
  rw [place_aside] at h
  rw [place_behind]
  omega

/-- Two environments of old places. -/
theorem same_env {r : Renaming} (hr : ∀ i < n, r.place i i) {env : Env}
    (h : ∀ id ∈ env.tables, id < n) : env.Same r env where
  inner := List.forall₂_same.mpr fun id hid => hr id (h id (List.mem_append_left _ hid))
  root := hr _ (h _ (List.mem_append_right _ List.mem_cons_self))

end Renaming

namespace Phases

open Renaming

/-! ## Filling a scope -/

/-- A scope that is being filled: the store has the same tables as another one, and the scope with
what has been bound so far. -/
structure Pending (n : Nat) (t : Table) (s s' : EvalState) : Prop where
  size : ∃ k, s.store.tables.size = n + 1 + k ∧ s'.store.tables.size = n + k
  tables : s.store.Matches (aside n) s'.store
  frame : s.store.table n = t

/-- How two computations end of which the first one fills a scope that the second one does not have
yet. -/
inductive Settles {α β : Type} (n : Nat) (R : α → β → Table → Prop) :
    EStateM.Result Fault EvalState α → EStateM.Result Fault EvalState β → Prop where
  | ok {v : α} {w : β} {t : Table} {s s' : EvalState} (hs : Pending n t s s') (hv : R v w t) :
      Settles n R (.ok v s) (.ok w s')
  | error {f g : Fault} {s s' : EvalState} (hs : s.store.Matches (aside n) s'.store)
      (hf : f.Same (aside n) g) : Settles n R (.error f s) (.error g s')

variable {n : Nat} {t : Table} {s s' : EvalState} {α β : Type}

def Pending.correspondence (h : Pending n t s s') : Correspondence where
  toRenaming := aside n
  left := s
  right := s'
  fresh k := by
    obtain ⟨k', hk, hk'⟩ := h.size
    rw [hk, hk']
    exact .inr ⟨by omega, by omega⟩

/-- A scope is opened. -/
theorem Pending.start (s : EvalState) (h : s.store.Placed) :
    Pending s.store.tables.size .empty ⟨(s.store.allocate .empty).2, s.events⟩ s where
  size := ⟨0, Store.size_allocate .., rfl⟩
  tables i j hplace := by
    rw [place_aside] at hplace
    rw [Store.table_allocate]
    rcases hplace with ⟨hlt, rfl⟩ | ⟨hlt, rfl⟩
    · rw [if_neg (Nat.ne_of_lt hlt)]
      exact .refl (fun hget hmem => .inl ⟨h.captured_lt hget hmem, rfl⟩) fun _ => rfl
    · rw [if_neg (Nat.ne_of_gt hlt), Store.table_of_size_le (Nat.le_of_lt hlt),
        Store.table_of_size_le (Nat.le_of_lt_succ hlt)]
      exact .empty
  frame := by rw [Store.table_allocate, if_pos rfl]

def Leaves (n : Nat) (R : α → β → Prop) (x : EvalM α) (y : EvalM β) : Prop :=
  ∀ t s s', Pending n t s s' → Settles n (fun v w t' => R v w ∧ t' = t) (x s) (y s')

/-- The first of two computations binds in the scope what the second one yields. -/
def Fills (n : Nat) (x : EvalM Unit) (y : EvalM (List (String × Value))) : Prop :=
  ∀ t s s', Pending n t s s' → Settles n (fun _ ws t' => ∃ vs, t' = t.insertAll vs ∧
    List.Forall₂ (Table.SameEntry (aside n)) vs ws) (x s) (y s')

theorem Leaves.of_agree {R : α → β → Prop} {x : EvalM α} {y : EvalM β}
    (h : ∀ {t s s'} (hs : Pending n t s s'), hs.correspondence.Agree R x y) : Leaves n R x y := by
  intro t s s' hs
  have hends := h hs s s' (Correspondence.holds_start hs.tables)
  have hframe {s₁ s₁' : EvalState} (hs₁ : hs.correspondence.Holds s₁ s₁') :
      s₁.store.table n = t := by
    rw [← hs.frame]
    refine hs₁.left fun j hj => ?_
    rcases hj with ⟨hlt, -⟩ | ⟨hlt, -⟩ <;> exact Nat.lt_irrefl n hlt
  generalize x s = a at hends ⊢
  generalize y s' = b at hends ⊢
  cases hends with
  | error hs₁ hf => exact .error hs₁.tables hf
  | ok hs₁ hv =>
    refine .ok ⟨?_, hs₁.tables, hframe hs₁⟩ ⟨hv, rfl⟩
    obtain ⟨k, hk, hk'⟩ := hs.size
    obtain ⟨k₁, hk₁, hk₁'⟩ := hs₁.added
    refine ⟨k + k₁, ?_, ?_⟩
    · rw [hk₁]
      change s.store.tables.size + k₁ = _
      rw [hk, Nat.add_assoc]
    · rw [hk₁']
      change s'.store.tables.size + k₁ = _
      rw [hk', Nat.add_assoc]

/-- An expression that was there before is evaluated alike. -/
theorem Leaves.evaluate {env : Env} {e : Value} (henv : ∀ id ∈ env.tables, id < n)
    (he : Discipline.placed.Allows n e) (traced : Bool) (depth : Nat) :
    Leaves n (Value.Same (aside n)) ((Level.ofDepth traced depth).evaluate env e)
      ((Level.ofDepth traced depth).evaluate env e) :=
  .of_agree fun hs => Correspondence.Respects.evaluate (hs.correspondence.respects traced depth)
    (same_env (r := aside n) (fun _ hi => .inl ⟨hi, rfl⟩) henv) (same_aside he)

/-- The items of a chain that was there before. -/
theorem Leaves.items {v : Value} (hv : Discipline.placed.Allows n v) (level : Level) :
    Leaves n (fun es es' => es = es' ∧ ∀ e ∈ es, Discipline.placed.Allows n e) (level.items v)
      (level.items v) := by
  intro t s s' hs
  unfold Level.items
  cases hitems : v.properItems with
  | ok es => exact .ok hs ⟨⟨rfl, Discipline.allows_of_mem_properItems hv hitems⟩, rfl⟩
  | error f =>
    have hsame := (same_aside hv).properItems
    rw [hitems] at hsame
    cases hsame with
    | error hf => exact .error hs.tables (hf.worded level.depth)

theorem Fills.pure : Fills n (pure ()) (pure []) :=
  fun _ _ _ hs => .ok hs ⟨[], rfl, .nil⟩

theorem Fills.raise {f g : Fault} (h : f.Same (aside n) g) (level : Level) :
    Fills n (level.raise f) (level.raise g) :=
  fun _ _ _ hs => .error hs.tables (h.worded level.depth)

/-- A step that leaves the scope as it is comes before the rest. -/
theorem Fills.bind {R : α → β → Prop} {x : EvalM α} {y : EvalM β} {k : α → EvalM Unit}
    {l : β → EvalM (List (String × Value))} (h : Leaves n R x y)
    (hk : ∀ v w, R v w → Fills n (k v) (l w)) : Fills n (x >>= k) (y >>= l) := by
  intro t s s' hs
  have hfirst := h t s s' hs
  simp only [Bind.bind, EStateM.bind]
  generalize x s = a at hfirst ⊢
  generalize y s' = b at hfirst ⊢
  cases hfirst with
  | error hs₁ hf => exact .error hs₁ hf
  | ok hs₁ hv =>
    obtain ⟨hv, rfl⟩ := hv
    exact hk _ _ hv _ _ _ hs₁

/-- A name is bound in the scope right away, or kept for later. -/
theorem Fills.define {v w : Value} (hv : v.Same (aside n) w) (x : String) {rest : EvalM Unit}
    {rest' : EvalM (List (String × Value))} (h : Fills n rest rest') :
    Fills n (EvalM.define n x v >>= fun _ => rest)
      (rest' >>= fun bindings => Pure.pure ((x, w) :: bindings)) := by
  intro t s s' hs
  have hdefined : Pending n (t.insert x v) { s with store := s.store.define n x v } s' := by
    obtain ⟨k, hk, hk'⟩ := hs.size
    have hlt : n < s.store.tables.size := by omega
    refine ⟨⟨k, (Store.size_define ..).trans hk, hk'⟩, fun i j hplace => ?_, ?_⟩
    · have hne : i ≠ n := by
        rintro rfl
        rcases hplace with ⟨hlt, -⟩ | ⟨hlt, -⟩ <;> exact Nat.lt_irrefl _ hlt
      rw [Store.table_define_of_ne hne]
      exact hs.tables i j hplace
    · rw [Store.table_define _ _ _ _ hlt, if_pos rfl, hs.frame]
  have hrest := h _ _ _ hdefined
  change Settles n _ (rest { s with store := s.store.define n x v }) _
  simp only [Bind.bind, EStateM.bind]
  generalize rest { s with store := s.store.define n x v } = a at hrest ⊢
  generalize rest' s' = b at hrest ⊢
  cases hrest with
  | error hs₁ hf => exact .error hs₁ hf
  | ok hs₁ hv =>
    obtain ⟨vs, rfl, hvs⟩ := hv
    exact .ok hs₁ ⟨(x, v) :: vs, rfl, .cons ⟨rfl, hv⟩ hvs⟩

section

variable {env : Env} (henv : ∀ id ∈ env.tables, id < n) (traced : Bool) (depth : Nat)
include henv

/-- Each initialiser is evaluated, and its name is bound right away or kept for later. -/
theorem Fills.bindInitialisers {entries : List Value}
    (hentries : ∀ entry ∈ entries, Discipline.placed.Allows n entry) :
    Fills n (Form.bindInitialisers (.ofDepth traced depth) env n entries)
      (initialisers (.ofDepth traced depth) env entries) := by
  induction entries with
  | nil => exact .pure
  | cons entry entries ih =>
    obtain ⟨hentry, hentries⟩ := List.forall_mem_cons.mp hentries
    refine .bind (.items hentry _) ?_
    rintro parts _ ⟨rfl, hparts⟩
    rcases parts with _ | ⟨name, _ | ⟨e, _ | _⟩⟩
    · exact .raise (.bindingShape (same_aside hentry)) _
    · cases name <;> exact .raise (.bindingShape (same_aside hentry)) _
    · have hname := same_aside (hparts name (by simp))
      cases name with
      | symbol x =>
        refine .bind (.evaluate henv (hparts e (by simp)) traced depth) fun v w hv => ?_
        exact .define hv x (ih hentries)
      | _ => exact .raise (.bindingName hname) _
    · cases name <;> exact .raise (.bindingShape (same_aside hentry)) _

/-- Each operand is evaluated, and bound right away or kept for later. -/
theorem Fills.bindEach {es : List Value} (hes : ∀ e ∈ es, Discipline.placed.Allows n e)
    (xs : List String) :
    Fills n (Formals.bindEach (.ofDepth traced depth) env n xs es)
      (arguments (.ofDepth traced depth) env xs es) := by
  induction xs generalizing es with
  | nil => exact .pure
  | cons x xs ih =>
    cases es with
    | nil => exact .pure
    | cons e es =>
      obtain ⟨he, hes⟩ := List.forall_mem_cons.mp hes
      refine .bind (.evaluate henv he traced depth) fun v w hv => ?_
      have hreport : Leaves n (fun _ _ => True)
          ((Level.ofDepth traced depth).report (.binding (.symbol x) v))
          ((Level.ofDepth traced depth).report (.binding (.symbol x) w)) :=
        .of_agree fun hs => Correspondence.Agree.report _ (.binding (.symbol x) hv)
      exact .bind hreport fun _ _ _ => .define hv x (ih hes)

end

/-! ## The scope is out of reach -/

/-- A scope that is being filled has not been captured by anything that is bound elsewhere. -/
theorem Pending.captured_ne (h : Pending n t s s') {i captured : TableId} {x : String}
    {v formals body : Value} (hi : i ≠ n) (hget : (s.store.table i).get? x = some v)
    (hmem : .closure formals body captured ∈ v.closures) : captured ≠ n := by
  obtain ⟨j, hplace⟩ : ∃ j, (aside n).place i j := by
    rcases Nat.lt_or_gt_of_ne hi with hlt | hlt
    · exact ⟨i, .inl ⟨hlt, rfl⟩⟩
    · exact ⟨i - 1, .inr ⟨hlt, (Nat.sub_add_cancel (Nat.one_le_of_lt hlt)).symm⟩⟩
  have hsame := (h.tables i j hplace).get? x
  rw [hget] at hsame
  generalize (s'.store.table j).get? x = b at hsame
  cases hsame with
  | some hv =>
    obtain ⟨j', hcaptured⟩ := hv.exists_place hmem
    rw [place_aside] at hcaptured
    rintro rfl
    omega

/-- While a scope is being filled, what is evaluated does not change it, and what has been bound in
it so far makes no difference. -/
theorem Pending.apart_eval (h : Pending n t s s') {env : Env} (henv : ∀ id ∈ env.tables, id < n)
    {e : Value} (he : Discipline.placed.Allows n e) (traced : Bool) (depth : Nat) {store : Store}
    (hsize : store.tables.size = s.store.tables.size)
    (hagree : ∀ id ≠ n, store.table id = s.store.table id) :
    finalAnswer (eval traced depth env e .nil ⟨store, s.events⟩) =
        finalAnswer (eval traced depth env e .nil s) ∧
      (finalState (eval traced depth env e .nil ⟨store, s.events⟩)).store.table n = store.table n ∧
      ∀ id ≠ n, (finalState (eval traced depth env e .nil ⟨store, s.events⟩)).store.table id =
        (finalState (eval traced depth env e .nil s)).store.table id := by
  obtain ⟨k, hk, -⟩ := h.size
  let c : Correspondence := .diagonal s ⟨store, s.events⟩ (· ≠ n) hsize
    fun {i} hi => by change @Ne Nat i n; omega
  have htables : s.store.Matches c.toRenaming store :=
    Store.matches_on (hagree _ ·) fun hi hget hmem => h.captured_ne hi hget hmem
  have hends := c.respects traced depth
    (same_env (r := c.toRenaming) (fun i hi => ⟨rfl, Nat.ne_of_lt hi⟩) henv)
    (same_on fun hmem => Nat.ne_of_lt (he _ _ _ hmem)) .nil s ⟨store, s.events⟩
    (Correspondence.holds_start htables)
  obtain ⟨hholds, hanswers⟩ := hends.final
  refine ⟨(eq_of_answers (fixes_on _) hanswers).symm, ?_, fun id hid => ?_⟩
  · exact hholds.right fun i hplace => hplace.2 hplace.1
  · exact ((hholds.tables id id ⟨rfl, hid⟩).eq_of_fixes (fixes_on _)).symm

/-! ## Both ways -/

/-- Two outcomes that are the same, but for the places of tables that were added. -/
def SameOutcome (n : Nat) (a b : EStateM.Result Fault EvalState Value) : Prop :=
  ∃ r : Renaming, (∀ i j : Nat, i < n ∨ j < n → (r.place i j ↔ i = j)) ∧
    (∀ i j, r.installation i j ↔ i = j) ∧
    r.Answers (Value.Same r) (finalAnswer a) (finalAnswer b) ∧
    (finalState a).store.Matches r (finalState b).store

theorem SameOutcome.of_error {f g : Fault} (hf : f.Same (aside n) g)
    (hs : s.store.Matches (aside n) s'.store) : SameOutcome n (.error f s) (.error g s') := by
  refine ⟨aside n, fun i j h => ?_, fun _ _ => Iff.rfl, .error hf, hs⟩
  rw [place_aside]
  omega

/-- When a scope has been filled, the body is evaluated alike in it and in a scope with the same
bindings that is opened then. -/
theorem Pending.enter (h : Pending n t s s') (hplaced : s.store.Placed)
    {bindings : List (String × Value)} (ht : t.Same (aside n) (Table.empty.insertAll bindings))
    {outer : Env} (houter : ∀ id ∈ outer.tables, id < n) {body : Value}
    (hbody : Discipline.placed.Allows n body) (traced : Bool) (depth : Nat) :
    SameOutcome n
      (((Level.ofDepth traced depth).items body >>=
        (Level.ofDepth traced depth).evaluateBody (outer.push n)) s)
      (enter (.ofDepth traced depth) outer bindings body s') := by
  obtain ⟨k, hk, hk'⟩ := h.size
  let s'' : EvalState := ⟨(s'.store.allocate (Table.empty.insertAll bindings)).2, s'.events⟩
  have hsize : s''.store.tables.size = n + 1 + k := by
    rw [Store.size_allocate, hk']
    omega
  let c : Correspondence := ⟨behind n k, s, s'', fun m => by
    rw [hk, hsize, place_behind]
    omega⟩
  -- what is in the tables is in use, so the new renaming says the same about it
  have himp {i : Nat} {u : Table} (hsame : (s.store.table i).Same (aside n) u) :
      (s.store.table i).Same (behind n k) u :=
    hsame.imp (fun hget hmem hplace =>
      place_behind_of_aside (hk ▸ hplaced.captured_lt hget hmem) hplace) id
  have htables : s.store.Matches c.toRenaming s''.store := by
    intro i j hplace
    have hold {i j : Nat} (hj : j < n + k) (hplace : (aside n).place i j) :
        (s.store.table i).Same (behind n k) (s''.store.table j) := by
      rw [Store.table_allocate_of_lt (hk' ▸ hj)]
      exact himp (h.tables i j hplace)
    rcases hplace with ⟨hlt, rfl⟩ | ⟨rfl, rfl⟩ | ⟨hlt, hle, rfl⟩ | ⟨hlt, rfl⟩
    · exact hold (Nat.lt_add_right k hlt) (.inl ⟨hlt, rfl⟩)
    · rw [← hk', Store.table_allocate, if_pos rfl]
      exact himp (h.frame ▸ ht)
    · exact hold hle (.inr ⟨hlt, rfl⟩)
    · have hi : n + 1 + k ≤ i := Nat.add_right_comm n 1 k ▸ hlt
      rw [Store.table_of_size_le (hk ▸ hi), Store.table_of_size_le (hsize ▸ hi)]
      exact .empty
  have henv : (outer.push n).Same c.toRenaming (outer.push s'.store.tables.size) := by
    exact (same_env (r := c.toRenaming) (fun i hi => .inl ⟨hi, rfl⟩) houter).push
      (.inr (.inl ⟨rfl, hk'⟩))
  have hagree : c.Agree (Value.Same c.toRenaming)
      ((Level.ofDepth traced depth).items body >>=
        (Level.ofDepth traced depth).evaluateBody (outer.push n))
      ((Level.ofDepth traced depth).items body >>=
        (Level.ofDepth traced depth).evaluateBody (outer.push s'.store.tables.size)) :=
    (Correspondence.Agree.items _ (same_behind hbody)).bind fun _ _ hes =>
      Correspondence.Respects.evaluateBody (c.respects traced depth) henv hes
  obtain ⟨hholds, hanswers⟩ := (hagree s s'' (Correspondence.holds_start htables)).final
  refine ⟨behind n k, fun i j hij => ?_, fun _ _ => Iff.rfl, hanswers, hholds.tables⟩
  rw [place_behind]
  omega

/-- A scope is opened, filled, and a body is evaluated in it; or the bindings come first. -/
theorem Fills.sameOutcome {x : EvalM Unit} {y : EvalM (List (String × Value))}
    (hfills : Fills s.store.tables.size x y) (hs : s.store.Placed)
    (htracks : Discipline.Tracks (D := Discipline.placed) .silent .silent
      (s.store.tables.size + 1) x x fun _ _ => True)
    {outer : Env} (houter : ∀ id ∈ outer.tables, id < s.store.tables.size) {body : Value}
    (hbody : Discipline.placed.Allows s.store.tables.size body) (traced : Bool) (depth : Nat) :
    SameOutcome s.store.tables.size
      ((x >>= fun _ => (Level.ofDepth traced depth).items body >>=
        (Level.ofDepth traced depth).evaluateBody (outer.push s.store.tables.size))
        ⟨(s.store.allocate .empty).2, s.events⟩)
      ((y >>= fun bindings => enter (.ofDepth traced depth) outer bindings body) s) := by
  have hkeeps : Discipline.placed.Keeps (s.store.tables.size + 1) (s.store.allocate .empty).2 := by
    refine ⟨Store.size_allocate .., fun hget _ _ _ hmem => ?_⟩
    rw [Store.table_allocate] at hget
    split at hget
    · cases hget
    · exact Nat.lt_succ_of_lt (hs.captured_lt hget hmem)
  have hsettles := hfills _ _ _ (Pending.start s hs)
  obtain ⟨m, -, hfinal, -⟩ := (htracks ⟨_, s.events⟩ hkeeps).ends.final
  simp only [Bind.bind, EStateM.bind]
  generalize x ⟨(s.store.allocate .empty).2, s.events⟩ = a at hsettles hfinal ⊢
  generalize y s = b at hsettles ⊢
  cases hsettles with
  | error htables hf => exact .of_error hf htables
  | ok hpending hv =>
    obtain ⟨vs, rfl, hvs⟩ := hv
    have hplaced : Store.Placed _ := ⟨fun hget hmem => hfinal.store ▸ hfinal.values hget _ _ _ hmem⟩
    exact hpending.enter hplaced (Table.Same.empty.insertAll hvs) houter hbody traced depth

/-- Binding operands to a list of parameters fills a scope with them. -/
theorem Fills.bind_each {n : Nat} {caller : Env} (hcaller : ∀ id ∈ caller.tables, id < n)
    {operands : Value} (ho : Discipline.placed.Allows n operands) (xs : List String)
    (traced : Bool) (depth : Nat) :
    Fills n ((Formals.each xs).bind (.ofDepth traced depth) caller n operands)
      ((Level.ofDepth traced depth).items operands >>= fun es =>
        if xs.length = es.length then arguments (.ofDepth traced depth) caller xs es
        else (Level.ofDepth traced depth).raise (.operandCount xs.length es.length)) := by
  refine .bind (.items ho _) ?_
  rintro es _ ⟨rfl, hes⟩
  split
  · exact .bindEach hcaller traced depth hes xs
  · exact .raise (.plain rfl) _

theorem call_eq (level : Level) (env : Env) (xs : List String) (body : Value) (captured : TableId)
    (operands : Value) :
    call level env xs body captured operands = (level.items operands >>= fun es =>
      if xs.length = es.length then arguments level env xs es
      else level.raise (.operandCount xs.length es.length)) >>= fun bindings =>
        enter level (env.push captured) bindings body := by
  rw [bind_assoc]
  unfold call
  congr 1
  funext es
  split
  · rfl
  · rfl

theorem SameOutcome.refl_error (n : Nat) (f : Fault) (hf : f.culprit? = none) (s : EvalState) :
    SameOutcome n (.error f s) (.error f s) := by
  refine ⟨.on fun _ => True, fun i j _ => ⟨fun h => h.1, fun h => ⟨h, trivial⟩⟩, fun _ _ => Iff.rfl,
    .error (.plain hf), ?_⟩
  exact Store.matches_on (fun _ => rfl) fun _ _ _ => trivial

/-- A `let` comes to the same in two phases. -/
theorem sameOutcome_runBinding {env : Env} {operands : Value} (h : s.store.Grounds env [operands])
    (traced : Bool) (depth : Nat) :
    SameOutcome s.store.tables.size (Form.runBinding (.ofDepth traced depth) env operands s)
      (runBinding (.ofDepth traced depth) env operands s) := by
  have hmatched := Discipline.placed_matched traced depth
  rw [Level.watched_silent] at hmatched
  have ho := h.values operands List.mem_cons_self
  cases operands with
  | pair entries body =>
    obtain ⟨hentries, hbody⟩ := Discipline.allows_pair.mp ho
    have hfills : Fills s.store.tables.size
        ((Level.ofDepth traced depth).items entries >>=
          Form.bindInitialisers (.ofDepth traced depth) env s.store.tables.size)
        ((Level.ofDepth traced depth).items entries >>=
          initialisers (.ofDepth traced depth) env) := by
      refine .bind (.items hentries _) ?_
      rintro es _ ⟨rfl, hes⟩
      exact .bindInitialisers h.env traced depth hes
    have hsame := hfills.sameOutcome h.placed
      ((hmatched.items (hentries.mono (Nat.le_succ _))).bind fun _ _ _ hes =>
        hmatched.bindInitialisers trivial trivial hes) h.env hbody traced depth
    rw [bind_assoc, bind_assoc] at hsame
    exact hsame
  | _ => exact .refl_error _ _ rfl s

/-- So does a call of a closure with a list of parameters. -/
theorem sameOutcome_call {caller : Env} {xs : List String} {body operands : Value}
    {captured : TableId}
    (h : s.store.Grounds caller [.closure (Formals.each xs).toValue body captured, operands])
    (traced : Bool) (depth : Nat) :
    SameOutcome s.store.tables.size
      (Closure.run (.ofDepth traced depth) caller (Formals.each xs).toValue body captured operands
        s)
      (call (.ofDepth traced depth) caller xs body captured operands s) := by
  have hmatched := Discipline.placed_matched traced depth
  rw [Level.watched_silent] at hmatched
  obtain ⟨hcaptured, -, hbody⟩ := Discipline.allows_closure.mp (h.values _ List.mem_cons_self)
  have ho := h.values operands (List.mem_cons_of_mem _ List.mem_cons_self)
  have hfills := Fills.bind_each h.env ho xs traced depth
  have htracks : Discipline.Tracks (D := Discipline.placed) .silent .silent
      (s.store.tables.size + 1) (Closure.bind (.ofDepth traced depth) caller s.store.tables.size
        (Formals.each xs).toValue operands) _ fun _ _ => True :=
    hmatched.bind trivial trivial (Formals.each xs).toValue (ho.mono (Nat.le_succ _))
  rw [Formals.bind_toValue] at htracks
  have houter : ∀ id ∈ (caller.push captured).tables, id < s.store.tables.size :=
    List.forall_mem_cons.mpr ⟨hcaptured, h.env⟩
  have hsame := hfills.sameOutcome h.placed htracks houter hbody traced depth
  rw [← call_eq, ← Formals.bind_toValue] at hsame
  exact hsame

theorem Fills.pending {x : EvalM Unit} {y : EvalM (List (String × Value))}
    (hfills : Fills s.store.tables.size x y) (hs : s.store.Placed) {s₁ : EvalState}
    (h : x ⟨(s.store.allocate .empty).2, s.events⟩ = .ok () s₁) :
    ∃ vs ws s₁', y s = .ok ws s₁' ∧ Pending s.store.tables.size (Table.empty.insertAll vs) s₁ s₁' ∧
      List.Forall₂ (Table.SameEntry (aside s.store.tables.size)) vs ws := by
  have hsettles := hfills _ _ _ (Pending.start s hs)
  rw [h] at hsettles
  generalize y s = b at hsettles
  cases hsettles with
  | ok hpending hv =>
    obtain ⟨vs, rfl, hvs⟩ := hv
    exact ⟨vs, _, _, rfl, hpending, hvs⟩

/-- An evaluation neither reads nor changes the table at a place: with any other table there, it
has the same answer or fault and leaves the same tables elsewhere. -/
def Overlooks (traced : Bool) (depth : Nat) (env : Env) (e : Value) (n : Nat) (s : EvalState) :
    Prop :=
  ∀ store : Store, store.tables.size = s.store.tables.size →
    (∀ id ≠ n, store.table id = s.store.table id) →
    finalAnswer (eval traced depth env e .nil ⟨store, s.events⟩) =
        finalAnswer (eval traced depth env e .nil s) ∧
      (finalState (eval traced depth env e .nil ⟨store, s.events⟩)).store.table n = store.table n ∧
      ∀ id ≠ n, (finalState (eval traced depth env e .nil ⟨store, s.events⟩)).store.table id =
        (finalState (eval traced depth env e .nil s)).store.table id

end Phases

open Phases

/-- **Filling.** Whatever initialisers and operands do, and whatever comes of it:

* A `let` has the same answer or fault as in two phases, and leaves the same tables, but for the
  places of tables that were not there before. So does a call of a closure with a list of
  parameters.
* A name that is bound more than once keeps its first position and has its last value.
* Once some entries of a `let` have been bound, the evaluation of an initialiser neither reads nor
  changes the scope. Neither does the evaluation of an operand once some operands have been bound.
* All of this holds for whatever a session comes to: nothing there refers to a table that is not
  there. -/
theorem filling_unobservable :
    (∀ (traced : Bool) (depth : Nat) (env : Env) (installation : Nat) (operands : Value)
        (s : EvalState), s.store.Grounds env [operands] →
      SameOutcome s.store.tables.size
        (eval traced (depth + 1) env (.form .binding installation) operands s)
        (runBinding (.ofDepth traced depth) env operands s)) ∧
    (∀ (traced : Bool) (depth : Nat) (caller : Env) (xs : List String) (body : Value)
        (captured : TableId) (operands : Value) (s : EvalState),
      s.store.Grounds caller [.closure (Formals.each xs).toValue body captured, operands] →
      SameOutcome s.store.tables.size
        (eval traced (depth + 1) caller (.closure (Formals.each xs).toValue body captured) operands
          s)
        (call (.ofDepth traced depth) caller xs body captured operands s)) ∧
    (∀ (bindings : List (String × Value)) (x : String),
      (Table.empty.insertAll bindings).names = (bindings.map Prod.fst).eraseDups ∧
        (Table.empty.insertAll bindings).get? x = bindings.reverse.lookup x) ∧
    (∀ (traced : Bool) (depth : Nat) (env : Env) (entries : List Value) (e : Value)
        (s s₁ : EvalState), s.store.Grounds env (e :: entries) →
      Form.bindInitialisers (.ofDepth traced depth) env s.store.tables.size entries
        ⟨(s.store.allocate .empty).2, s.events⟩ = .ok () s₁ →
      Overlooks traced depth env e s.store.tables.size s₁) ∧
    (∀ (traced : Bool) (depth : Nat) (caller : Env) (xs : List String) (es : List Value) (e : Value)
        (s s₁ : EvalState), s.store.Grounds caller (e :: es) →
      Closure.bindEach (.ofDepth traced depth) caller s.store.tables.size (xs.map .symbol) es
        ⟨(s.store.allocate .empty).2, s.events⟩ = .ok () s₁ →
      Overlooks traced depth caller e s.store.tables.size s₁) ∧
    ∀ (p : Process) (session : Session) (traced : Bool) (source : String) (env : Env)
        (v operands : Value) (s : EvalState), p.Reached → session ∈ p.sessions →
      Enters (session.program traced source p.world) ⟨p.world.store, []⟩ env v operands s →
      s.store.Grounds env [v, operands] := by
  refine ⟨fun traced depth env installation operands s h => sameOutcome_runBinding h traced depth,
    fun traced depth caller xs body captured operands s h => sameOutcome_call h traced depth,
    fun bindings x => ⟨?_, ?_⟩, fun traced depth env entries e s s₁ h hfilled => ?_,
    fun traced depth caller xs es e s s₁ h hfilled => ?_,
    fun p session traced source env v operands s hp hmem h => hp.grounds_of_enters hmem h⟩
  · exact Table.names_insertAll_empty bindings
  · exact Table.get?_insertAll_empty bindings x
  · obtain ⟨he, hentries⟩ := List.forall_mem_cons.mp h.values
    obtain ⟨_, _, _, -, hpending, -⟩ :=
      (Fills.bindInitialisers h.env traced depth hentries).pending h.placed hfilled
    exact fun store hsize hagree => hpending.apart_eval h.env he traced depth hsize hagree
  · obtain ⟨he, hes⟩ := List.forall_mem_cons.mp h.values
    rw [Formals.bindEach_eq] at hfilled
    obtain ⟨_, _, _, -, hpending, -⟩ :=
      (Fills.bindEach h.env traced depth hes xs).pending h.placed hfilled
    exact fun store hsize hagree => hpending.apart_eval h.env he traced depth hsize hagree

/-- A name that is bound twice, and an initialiser that asks for a name of its own scope. -/
theorem filling_unobservable_of_repeated_name :
    let s : EvalState := ⟨⟨#[.empty], 0⟩, []⟩
    let entry (x : String) (e : Value) := Value.chain [.symbol x, e] .nil
    let repeated := Value.chain [.chain [entry "x" (.integer 1), entry "x" (.integer 2)] .nil,
      .symbol "x"] .nil
    let nested := Value.chain [.chain [entry "x" (.integer 1), entry "y" (.symbol "x")] .nil,
      .symbol "y"] .nil
    let outcome := eval false 9 ⟨[], 0⟩ (.form .binding 0)
    SameOutcome 1 (outcome repeated s) (runBinding (.ofDepth false 8) ⟨[], 0⟩ repeated s) ∧
      finalAnswer (outcome repeated s) = .ok (.integer 2) ∧
      SameOutcome 1 (outcome nested s) (runBinding (.ofDepth false 8) ⟨[], 0⟩ nested s) ∧
      finalAnswer (outcome nested s) = .error (.unresolved "x") := by
  intro s entry repeated nested outcome
  have hempty (id : TableId) : s.store.table id = .empty := by
    cases id <;> rfl
  have hgrounds {operands : Value} (h : operands.closures = []) :
      s.store.Grounds ⟨[], 0⟩ [operands] := by
    refine ⟨⟨fun hget _ => ?_⟩, by decide, List.forall_mem_singleton.mpr ?_⟩
    · rw [hempty] at hget
      cases hget
    · exact Discipline.allows_of_closures_eq_nil h
  obtain ⟨hlet, -⟩ := filling_unobservable
  exact ⟨hlet false 8 ⟨[], 0⟩ 0 repeated s (hgrounds rfl), by decide,
    hlet false 8 ⟨[], 0⟩ 0 nested s (hgrounds rfl), by decide⟩

end MiniScheme
