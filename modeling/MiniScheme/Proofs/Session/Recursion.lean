import MiniScheme.Proofs.Session.Course

/-!
# What a recursive definition refers to

A closure captures the root before its name is bound there. If the name is new, it is thus not in
the captured table, and in the body it is found in the root like any other global. If the name was
bound already, the old value has been captured. It stands in front of the root then, and the body
never gets to see the new one.

## Main definitions

* `Layout.close`: a table gets no more names.
* `Layout.Entered`: the body of a closure is about to be evaluated.
* `Process.InBodies`: what is so in the bodies of all later calls of a closure.

## Main statements

* `Layout.Entered.get?_scope`: what is not a parameter is looked up behind the fresh scope.
* `Process.recursive_reference`: what the name of a closure means in its body.
-/

namespace MiniScheme

namespace Layout

variable {l l' : Layout} {id : TableId}

/-- The layout in which a table gets no more names. No closure has captured it, so any closure will
do. -/
def close (l : Layout) (id : TableId) (h : id < l.size) : Layout where
  __ := l
  snapshot other := if other = id then some (.nil, .nil) else l.snapshot other
  snapshot_lt {other} hother := by
    by_cases hid : other = id
    · exact hid ▸ h
    · rw [if_neg hid] at hother
      exact l.snapshot_lt hother

/-- What was there before is not concerned. -/
theorem Le.close (h : l.Le l') (hid : l.size ≤ id) (hlt : id < l'.size) :
    l.Le (l'.close id hlt) where
  size := h.size
  names := h.names
  snapshot hother :=
    (if_neg (Nat.ne_of_lt (Nat.lt_of_lt_of_le hother hid))).trans (h.snapshot hother)
  fixed := h.fixed

theorem close_keeps {root : TableId} {s : Store} (h : (discipline root).Keeps l s)
    (hid : l.Free id) : (discipline root).Keeps (l.close id hid.1) s where
  store := ⟨h.store.size, h.store.names⟩
  values hget formals body captured hmem := by
    have hclosure : l.snapshot captured = some (formals, body) := h.values hget _ _ _ hmem
    refine (if_neg ?_).trans hclosure
    rintro rfl
    rw [hid.2] at hclosure
    cases hclosure

/-! ## Bodies of closures -/

/-- The body of a closure is about to be evaluated, in an environment with a fresh scope in front
that binds no other names than those of parameters. -/
structure Entered (l : Layout) (formals : Value) (outer : Env) (frame : TableId) (es : List Value)
    (s : Store) : Prop where
  keeps : (discipline outer.root).Keeps l s
  root : l.Free outer.root
  body : ∀ e ∈ es, (discipline outer.root).Allows l e
  closed : (l.snapshot frame).isSome = true
  parameters : ∀ x ∈ l.names frame, x ∈ formals.parameterNames

section Entered

variable {formals : Value} {outer : Env} {frame : TableId} {es : List Value} {s : EvalState}
  (h : l.Entered formals outer frame es s.store)
include h

/-- What is not a parameter is looked up behind the fresh scope. -/
theorem Entered.get?_scope (hle : l.Le l') {store : Store} (hstore : l'.Describes store)
    {x : String} (hx : x ∉ formals.parameterNames) :
    store.get? (outer.push frame) x = store.get? outer x := by
  have hnone : (store.table frame).get? x = none := by
    rw [← Option.not_isSome_iff_eq_none]
    intro hsome
    rw [← Table.contains, Table.contains_iff_mem_names, ← hstore.names, hle.fixed h.closed] at hsome
    exact hx (h.parameters x hsome)
  rw [Store.get?_push, hnone]
  rfl

variable {traced : Bool} {depth : Nat}

/-- While the body is evaluated, the layout grows. -/
theorem Entered.until_describes (stop : Moment → Bool) :
    Until (fun alarm => (Level.watched alarm traced depth).evaluateBody (outer.push frame) es) stop
      s fun store => ∃ l', l.Le l' ∧ l'.Describes store := by
  have henv : (discipline outer.root).env l (outer.push frame) := ⟨rfl, h.root⟩
  exact Discipline.until_evaluateBody (fun a _ => matched outer.root (fun _ hm => hm) traced depth)
    henv h.body h.keeps fun hle hstore => ⟨_, hle, hstore⟩

/-- A binding stays as it is until something is about to change it. -/
theorem Entered.until_kept {place : TableId} {x : String} {v : Value}
    (hget : (s.store.table place).get? x = some v) :
    Until (fun alarm => (Level.watched alarm traced depth).evaluateBody (outer.push frame) es)
      (Moment.rebinds place x) s fun store => (store.table place).get? x = some v := by
  have henv : (keeping outer.root place x v).env l (outer.push frame) := ⟨rfl, h.root⟩
  exact Discipline.until_evaluateBody (fun a ha => keeping_matched ha traced depth) henv h.body
    (keeping_keeps h.keeps hget) fun _ hstore => hstore.2.2

end Entered

end Layout

/-! ## Binding the operands -/

section Bind

variable {caller : Env} {formals operands : Value} {traced : Bool} {depth : Nat} {s s₁ : EvalState}
  (hbind : Closure.bind (.ofDepth traced depth) caller s.store.tables.size formals operands
    ⟨(s.store.allocate .empty).2, s.events⟩ = .ok () s₁)
include hbind

/-- Nothing but parameters is bound in the scope of a call. -/
theorem Snapshot.names_of_bind {n : Nat} (hs : (discipline []).Keeps n s.store)
    (henv : (discipline []).env n caller) (ho : (discipline []).Allows n operands) :
    ∀ x ∈ (s₁.store.table s.store.tables.size).names, x ∈ formals.parameterNames := by
  have hmatched (t : Table) : (discipline [scope s.store.tables.size t]).Matched .silent .silent
      (.ofDepth traced depth) (.ofDepth traced depth) := by
    rw [← Level.watched_silent]
    have hquiet := List.forall_mem_singleton.mpr (isQuiet_scope s.store.tables.size t)
    exact matched_of_isQuiet hquiet .silent traced depth
  have hfills : Fills [] s.store.tables.size formals.parameterNames n
      (Closure.bind (.ofDepth traced depth) caller s.store.tables.size formals operands
        ⟨(s.store.allocate .empty).2, s.events⟩) :=
    fills_bind hmatched (by simp) (keeps_open hs) (env_open henv hs.store.1)
      (allows_open ho hs.store.1)
  rw [hbind] at hfills
  obtain ⟨n', t, -, hkeeps, hnames⟩ := hfills
  have htable : s₁.store.table s.store.tables.size = t :=
    (hkeeps.store.2 (scope _ t) List.mem_cons_self).2
  rw [htable]
  exact hnames

namespace Layout

variable {l : Layout} (hs : (discipline caller.root).Keeps l s.store)
  (henv : (discipline caller.root).env l caller)
  (ho : (discipline caller.root).Allows l operands)
include hs henv ho

/-- Once the operands are bound, the body is evaluated in a scope of parameters. -/
theorem entered_of_bind {body : Value} {captured : TableId} {es : List Value}
    (hbody : (discipline caller.root).Allows l body) (hitems : body.properItems = .ok es)
    (hnames : ∀ x ∈ (s₁.store.table s.store.tables.size).names, x ∈ formals.parameterNames) :
    ∃ l₁, l.Le l₁ ∧
      l₁.Entered formals (caller.push captured) s.store.tables.size es s₁.store := by
  obtain ⟨l₁, hle₁, hopened, hframe⟩ := hs.opens
  have hmatched : (discipline caller.root).Matched .silent .silent (.ofDepth traced depth)
      (.ofDepth traced depth) := by
    rw [← Level.watched_silent]
    exact matched caller.root (fun _ hm => hm) traced depth
  have htracks := hmatched.bind ((discipline caller.root).env_mono hle₁ henv) hframe formals
    (ho.mono hle₁)
  obtain ⟨l₂, hle₂, hbound, -⟩ := (htracks ⟨_, s.events⟩ hopened).ends.final
  rw [hbind] at hbound
  have hfree : l₂.Free s.store.tables.size := hle₂.free hframe
  have hle : l.Le (l₂.close s.store.tables.size hfree.1) :=
    (hle₁.trans hle₂).close (Nat.le_of_eq hs.store.size) hfree.1
  refine ⟨_, hle, close_keeps hbound hfree, hle.free henv.2, ?_, ?_, fun x hx => ?_⟩
  · exact Discipline.allows_of_mem_properItems (hbody.mono hle) hitems
  · exact congrArg Option.isSome (if_pos rfl)
  · exact hnames x (hbound.store.names _ ▸ hx)

/-- While operands are bound, a binding stays as it is as long as nothing is about to change it. -/
theorem get?_of_bind {place : TableId} {x : String} {v : Value}
    (hget : (s.store.table place).get? x = some v)
    (havoids : Avoids (fun alarm => Closure.bind (.watched alarm traced depth) caller
      s.store.tables.size formals operands) (Moment.rebinds place x)
      ⟨(s.store.allocate .empty).2, s.events⟩) :
    (s₁.store.table place).get? x = some v := by
  let a : Alarm := ⟨Moment.rebinds place x, .tooDeep⟩
  have hmatched : (keeping caller.root place x v).Matched a a (.watched a traced depth)
      (.watched a traced depth) := keeping_matched (fun _ hm => hm) traced depth
  obtain ⟨l₁, hle₁, hopened, hframe⟩ := (keeping_keeps hs hget).opens
  have htracks := hmatched.bind ((keeping caller.root place x v).env_mono hle₁ henv) hframe formals
    (ho.mono hle₁)
  obtain ⟨_, -, hbound, -⟩ := (htracks ⟨_, s.events⟩ hopened).ends.final
  have hlax {a b : Alarm} (hweaker : ∀ m, b.picks m = true → a.picks m = true) :
      Discipline.Tracks (D := Discipline.lax) a b ()
        (Closure.bind (.watched a traced depth) caller s.store.tables.size formals operands)
        (Closure.bind (.watched b traced depth) caller s.store.tables.size formals operands)
        fun _ _ => True :=
    (Discipline.lax_matched hweaker traced depth).bind trivial trivial formals
      (Discipline.lax_allows operands)
  rw [Discipline.eq_silent_of_avoids hlax havoids .tooDeep, Level.watched_silent, hbind] at hbound
  exact hbound.store.2.2

end Layout

end Bind

namespace Process

/-! ## Later calls -/

/-- Wherever a closure is called later from some callers, before any moment that a test picks, it
comes to its body in some environment, and up to such a moment something is so of this environment
and the store. -/
def InBodies (p : Process) (callers : Env → Prop) (formals body : Value) (captured : TableId)
    (stop : Moment → Bool) (P : Env → Store → Prop) : Prop :=
  ∀ caller operands s, callers caller →
    p.ComesTo stop caller (.closure formals body captured) operands s →
    ∀ traced depth es s₁, body.properItems = .ok es →
    let opened : EvalState := ⟨(s.store.allocate .empty).2, s.events⟩
    let scope := (caller.push captured).push s.store.tables.size
    let extent (alarm : Alarm) := (Level.watched alarm traced depth).evaluateBody scope es
    Avoids (fun alarm => Closure.bind (.watched alarm traced depth) caller s.store.tables.size
      formals operands) stop opened →
    Closure.bind (.ofDepth traced depth) caller s.store.tables.size formals operands opened =
      .ok () s₁ →
    eval traced (depth + 1) caller (.closure formals body captured) operands s = extent .silent s₁ ∧
      Until extent stop s₁ (P scope)

variable {l : Layout} {p : Process} {callers : Env → Prop} {formals body : Value}
  {captured : TableId} {stop : Moment → Bool} {P Q : Env → Store → Prop}

/-- The body of a closure that a process comes to call. -/
theorem ComesTo.entered {caller : Env} {operands : Value} {s s₁ : EvalState} {traced : Bool}
    {depth : Nat} {es : List Value} (hp : Ordered l p)
    (h : p.ComesTo stop caller (.closure formals body captured) operands s)
    (hitems : body.properItems = .ok es)
    (hbind : Closure.bind (.ofDepth traced depth) caller s.store.tables.size formals operands
      ⟨(s.store.allocate .empty).2, s.events⟩ = .ok () s₁) :
    ∃ l₁, l.Le l₁ ∧
      l₁.Entered formals (caller.push captured) s.store.tables.size es s₁.store := by
  obtain ⟨l₁, hle₁, hs, henv, hv, ho⟩ := h.ordered hp
  obtain ⟨n, hplaced, henv', -, ho'⟩ := h.placed hp
  obtain ⟨-, -, hbody⟩ := Discipline.allows_closure.mp hv
  have hnames := Snapshot.names_of_bind hbind hplaced henv' ho'
  obtain ⟨l₂, hle₂, hentered⟩ := Layout.entered_of_bind hbind hs henv ho hbody hitems hnames
  exact ⟨l₂, hle₁.trans hle₂, hentered⟩

theorem InBodies.imp (h : p.InBodies callers formals body captured stop P)
    (hPQ : ∀ env store, P env store → Q env store) :
    p.InBodies callers formals body captured stop Q := by
  intro caller operands s hcaller hcomes traced depth es s₁ hitems opened scope extent havoids hbind
  obtain ⟨hrun, huntil⟩ :=
    h caller operands s hcaller hcomes traced depth es s₁ hitems havoids hbind
  exact ⟨hrun, huntil.imp (hPQ scope)⟩

/-- In every later call of a closure, a name that is not a parameter is looked up in the captured
table and behind it. -/
theorem Ordered.inBodies (hp : Ordered l p)
    (hP : ∀ caller frame l' store, callers caller → l.Le l' → l'.Describes store →
      (∀ x ∉ formals.parameterNames, store.get? ((caller.push captured).push frame) x =
        store.get? (caller.push captured) x) →
      P ((caller.push captured).push frame) store) :
    p.InBodies callers formals body captured stop P := by
  intro caller operands s hcaller hcomes traced depth es s₁ hitems opened scope extent _ hbind
  obtain ⟨l₁, hle, hentered⟩ := hcomes.entered hp hitems hbind
  refine ⟨?_, (hentered.until_describes stop).imp fun store ⟨l', hle', hstore⟩ => ?_⟩
  · rw [show extent .silent = _ from congrArg (Level.evaluateBody · scope es)
      (Level.watched_silent traced depth)]
    exact Closure.run_of_bind hbind hitems
  · exact hP caller _ l' store hcaller (hle.trans hle') hstore fun x hx =>
      hentered.get?_scope hle' hstore hx

/-- A binding stays as it is until something is about to change it. -/
theorem InBodies.kept {place : TableId} {x : String} {v : Value}
    (h : p.InBodies callers formals body captured (Moment.rebinds place x) P) (hp : Ordered l p)
    (hget : (p.world.store.table place).get? x = some v) :
    p.InBodies callers formals body captured (Moment.rebinds place x)
      fun env store => P env store ∧ (store.table place).get? x = some v := by
  intro caller operands s hcaller hcomes traced depth es s₁ hitems opened scope extent havoids hbind
  obtain ⟨hrun, huntil⟩ :=
    h caller operands s hcaller hcomes traced depth es s₁ hitems havoids hbind
  obtain ⟨l₁, -, hs, henv, -, ho⟩ := hcomes.ordered hp
  obtain ⟨l₂, -, hentered⟩ := hcomes.entered hp hitems hbind
  have hbound := Layout.get?_of_bind hbind hs henv ho (hcomes.get?_table hp hget) havoids
  exact ⟨hrun, huntil.and (hentered.until_kept hbound)⟩

/-! ## Changes of a captured binding -/

/-- What a closure has captured is changed by assignments only, in environments with the captured
table, and never without a call of the closure. -/
theorem Ordered.rebinds_captured (hp : Ordered l p) (hclosure : l.snapshot captured = some (formals,
    body)) {session : Session} (hmem : session ∈ p.sessions) {traced : Bool} {e : Value}
    (he : e.closures = []) {events : List Event} (x : String) :
    (∀ env u operands s, Enters (session.expression traced e p.world) ⟨p.world.store, events⟩ env u
        operands s → (Moment.entry env u operands s.store).rebinds captured x = true →
      (∃ k, u = .form .assign k) ∧ captured ∈ env.inner) ∧
    (Avoids (session.expression traced e p.world) (Moment.calls (.closure formals body captured))
        ⟨p.world.store, events⟩ →
      Avoids (session.expression traced e p.world) (Moment.rebinds captured x)
        ⟨p.world.store, events⟩) := by
  refine ⟨fun env u operands s henters hrebinds => ?_, fun havoids => ?_⟩
  · obtain ⟨l₁, hle, -, henv, -, -⟩ := Discipline.keeps_of_enters (fun a =>
      (Layout.matched session.root (a := a) (by simp [Alarm.silent]) traced
        p.world.limit).expression (hp.env hmem) he) (hp.keeps session.root) henters
    -- a `define` changes a root, and no root is ever captured
    have hne : captured ≠ env.root :=
      henv.1 ▸ Layout.ne_of_snapshot henv.2 (hle.snapshot_eq_some hclosure)
    rcases Moment.rebinds_cases hrebinds with ⟨-, heq⟩ | ⟨hassign, -⟩
    · exact absurd heq.symm hne
    · refine ⟨hassign, ?_⟩
      rcases List.mem_append.mp (Moment.mem_tables_of_rebinds hrebinds) with hinner | hroot
      · exact hinner
      · exact absurd (List.mem_singleton.mp hroot) hne
  · let k : Snapshot := ⟨formals, body, captured, p.world.store.table captured⟩
    have hkeeps : (Snapshot.discipline [k]).Keeps p.world.store.tables.size p.world.store :=
      hp.keeps_snapshot hclosure rfl
    refine Discipline.avoids_of_tracks Session.expression_tracks (fun f =>
      (k.matched_of_calls (by simp +contextual) (fun _ hm => hm) traced p.world.limit).expression
        (hp.env_snapshot hmem hclosure) he) hkeeps (fun {n m} _ _ hm => ?_) havoids
    cases m with
    | result u store => rfl
    | entry env u operands store =>
      refine Bool.eq_false_iff.mpr fun hrebinds => ?_
      exact (hm.1 captured (Moment.mem_tables_of_rebinds hrebinds)).2 k List.mem_cons_self rfl

/-! ## Recursive definitions -/

instance : DecidableEq EvalState := fun s t =>
  decidable_of_iff (s.store.tables = t.store.tables ∧
    s.store.installations = t.store.installations ∧ s.events = t.events) (by
    obtain ⟨⟨_, _⟩, _⟩ := s
    obtain ⟨⟨_, _⟩, _⟩ := t
    simp [and_assoc])

theorem eq_ok_of_finalAnswer {r : EStateM.Result Fault EvalState Value} {v : Value}
    (h : finalAnswer r = .ok v) : r = .ok v (finalState r) := by
  cases r with
  | ok u s => rw [Except.ok.inj h]; rfl
  | error f s => cases h

/-- The definition of a closure in the root of a session captures the root, and binds the name there
afterwards. -/
theorem Ordered.evaluate_definition {session : Session} (hl : Ordered l p)
    (hmem : session ∈ p.sessions) {i j : Nat}
    (hdefine : session.global? "define" p.world.store = some (.form .define i))
    (hlambda : session.global? "lambda" p.world.store = some (.form .lambda j))
    {f : String} (hformals : formals.closures = []) (hbody : body.closures = []) {traced : Bool}
    {events : List Event} {v : Value} {s : EvalState}
    (heval : eval traced p.world.limit session.env (.definition f formals body) .nil
      ⟨p.world.store, events⟩ = .ok v s) :
    let q := p.evaluate session traced (.definition f formals body) events
    let captured : TableId := p.world.store.tables.size
    v = .closure formals body captured ∧ session.global? f q.world.store = some v ∧
      q.world.store.table captured = p.world.store.table session.root ∧
      ∃ l', Ordered l' q ∧ l'.snapshot captured = some (formals, body) := by
  intro q captured
  obtain ⟨rfl, hstore⟩ : v = .closure formals body captured ∧ s.store = (p.world.store.allocate
      (p.world.store.table session.root)).2.define session.root f v := by
    refine eval_definition_ok (i := i) (j := j) ?_ ?_ heval
    · exact hdefine
    · exact hlambda
  have hq : q.world.store = s.store := by
    change (finalState (eval traced p.world.limit session.env (.definition f formals body) .nil
      ⟨p.world.store, events⟩)).store = s.store
    rw [heval]
    rfl
  have hroot : session.root < p.world.store.tables.size := hl.store.size ▸ (hl.roots hmem).1
  have hglobal : session.global? f q.world.store = some (.closure formals body captured) := by
    rw [hq, hstore, Session.global?, Store.table_define _ _ _ _ (Store.lt_size_allocate hroot _),
      if_pos rfl, Table.get?_insert, if_pos rfl]
  obtain ⟨l', -, hl'⟩ := hl.evaluate hmem (e := .definition f formals body)
    (by simp [Value.definition, Value.closures, hformals, hbody]) traced events
  refine ⟨rfl, hglobal, ?_, l', hl', hl'.closures ⟨_, .inr ⟨_, _, hglobal⟩, List.mem_cons_self⟩⟩
  rw [hq, hstore, Store.table_define_of_ne (Nat.ne_of_gt hroot), Store.table_allocate, if_pos rfl]

/-- **Recursive references.** When a closure with a given name is defined in the root of a session,
in any state that a process can come to:

* If the name was unbound, it means in the bodies of all later calls from the root what the root
  binds it to at that time. This is the closure itself, up to a change of that binding.
* If the name was bound, it means in the bodies of all later calls, from wherever, what it meant
  before, up to a change of the binding that the closure has captured. Such a change is a `set!`, in
  an environment with the captured table in it. There is none in the evaluation of any expression
  that comes to no call of the closure. -/
theorem recursive_reference {p : Process} (hp : Course (fun _ => false) initial p)
    {session : Session} (hmem : session ∈ p.sessions) {i j : Nat}
    (hdefine : session.global? "define" p.world.store = some (.form .define i))
    (hlambda : session.global? "lambda" p.world.store = some (.form .lambda j))
    {f : String} {formals body : Value} (hf : f ∉ formals.parameterNames)
    (hformals : formals.closures = []) (hbody : body.closures = []) {traced : Bool}
    {events : List Event} {v : Value} {s : EvalState}
    (heval : eval traced p.world.limit session.env (.definition f formals body) .nil
      ⟨p.world.store, events⟩ = .ok v s) :
    let q := p.evaluate session traced (.definition f formals body) events
    let captured : TableId := p.world.store.tables.size
    v = .closure formals body captured ∧ session.global? f q.world.store = some v ∧
    (session.global? f p.world.store = none →
      q.InBodies (· = session.env) formals body captured (fun _ => false) (fun env store =>
        (session.global? f store).isSome = true ∧ store.get? env f = session.global? f store) ∧
      q.InBodies (· = session.env) formals body captured (Moment.rebinds session.root f)
        fun env store => store.get? env f = some v) ∧
    ∀ w, session.global? f p.world.store = some w →
      q.InBodies (fun _ => True) formals body captured (Moment.rebinds captured f)
        (fun env store => store.get? env f = some w) ∧
      ∀ r session' traced' e events', Course (fun _ => false) q r → session' ∈ r.sessions →
        e.closures = [] →
        let later := Session.expression session' traced' e r.world
        let start : EvalState := ⟨r.world.store, events'⟩
        (∀ env u operands s, Enters later start env u operands s →
          (Moment.entry env u operands s.store).rebinds captured f = true →
          (∃ k, u = .form .assign k) ∧ captured ∈ env.inner) ∧
        (Avoids later (Moment.calls v) start → Avoids later (Moment.rebinds captured f) start) := by
  intro q captured
  obtain ⟨l, -, hl⟩ := hp.ordered ordered_initial
  obtain ⟨rfl, hglobal, htable, l', hl', hclosure⟩ :=
    hl.evaluate_definition hmem hdefine hlambda hformals hbody heval
  have hnames {l₁ : Layout} {store : Store} (hle : l'.Le l₁) (hstore : l₁.Describes store) :
      (store.table captured).names = (p.world.store.table session.root).names := by
    rw [← hstore.names, hle.fixed (by simp [captured, hclosure]), hl'.store.names, htable]
  refine ⟨rfl, hglobal, fun hnew => ?_, fun w hold => ⟨?_, ?_⟩⟩
  · -- the name is not captured, and is found in the root
    have hbehind (stop : Moment → Bool) : q.InBodies (· = session.env) formals body captured stop
        fun env store => (session.global? f store).isSome = true ∧
          store.get? env f = session.global? f store := by
      refine hl'.inBodies fun caller frame l₁ store hcaller hle hstore hlook => ?_
      subst hcaller
      have hsome : (session.global? f store).isSome = true := by
        have hbinds := hle.binds (hl'.store.binds (x := f) (Option.isSome_of_eq_some hglobal))
        exact Table.contains_iff_mem_names.mpr (hstore.names _ ▸ hbinds.2)
      have hnone : (store.table captured).get? f = none := by
        rw [← Option.not_isSome_iff_eq_none]
        intro hbound
        have hold := hnames hle hstore ▸ Table.contains_iff_mem_names.mp hbound
        exact Option.not_isSome_iff_eq_none.mpr hnew (Table.contains_iff_mem_names.mpr hold)
      refine ⟨hsome, ?_⟩
      rw [hlook f hf, Store.get?_push, hnone]
      rfl
    refine ⟨hbehind _, ((hbehind _).kept hl' hglobal).imp fun env store ⟨⟨_, hget⟩, hkept⟩ => ?_⟩
    exact hget.trans hkept
  · -- the old value is captured, and stands in front
    have hfront : q.InBodies (fun _ => True) formals body captured (Moment.rebinds captured f)
        fun env store => ∀ w, (store.table captured).get? f = some w →
          store.get? env f = some w := by
      refine hl'.inBodies fun caller frame l₁ store _ _ _ hlook w hget => ?_
      rw [hlook f hf, Store.get?_push, hget]
      rfl
    refine (hfront.kept hl' (htable ▸ hold)).imp fun env store ⟨hget, hkept⟩ => hget w hkept
  · intro r session' traced' e events' hcourse hmem' he later start
    obtain ⟨l₁, hle, hr⟩ := hcourse.ordered hl'
    exact hr.rebinds_captured (hle.snapshot_eq_some hclosure) hmem' he f

/-- The same definition twice: the first closure means itself, and the second one means the first
one. -/
theorem recursive_reference_of_redefinition :
    let session : Session := ⟨0⟩
    let body := Value.chain [.symbol "f"] .nil
    let definition := Value.definition "f" .nil body
    let p := initial.register
    let q := p.evaluate session false definition []
    let q' := q.evaluate session false definition []
    let means (n : TableId) (env : Env) (store : Store) : Prop :=
      store.get? env "f" = some (.closure .nil body n)
    q.InBodies (· = session.env) .nil body 1 (Moment.rebinds 0 "f") (means 1) ∧
      q'.InBodies (fun _ => True) .nil body 2 (Moment.rebinds 2 "f") (means 1) ∧
      ∃ s s₁, q'.ComesTo (Moment.rebinds 2 "f") session.env (.closure .nil body 2) .nil s ∧
        Until (fun alarm => (Level.watched alarm false 900).evaluateBody
          ((session.env.push 2).push s.store.tables.size) [.symbol "f"]) (Moment.rebinds 2 "f") s₁
          (means 1 ((session.env.push 2).push s.store.tables.size)) := by
  intro session body definition p q q' means
  have hp : Course (fun _ => false) initial p := .register .refl
  have hmem : session ∈ p.sessions := List.mem_cons_self
  have hq : Course (fun _ => false) initial q :=
    .evaluate hp hmem rfl (avoids_of_isAnswered .tooDeep (by decide +kernel))
  have heval : eval false p.world.limit session.env definition .nil ⟨p.world.store, []⟩ =
      .ok (.closure .nil body 1) _ := eq_ok_of_finalAnswer (by decide +kernel)
  have heval' : eval false q.world.limit session.env definition .nil ⟨q.world.store, []⟩ =
      .ok (.closure .nil body 2) _ := eq_ok_of_finalAnswer (by decide +kernel)
  obtain ⟨-, hold, hnew, -⟩ := recursive_reference (i := 0) (j := 0) hp hmem (by decide +kernel)
    (by decide +kernel) (by simp [Value.parameterNames]) rfl rfl heval
  obtain ⟨-, -, -, hbound⟩ := recursive_reference (i := 0) (j := 0) hq hmem (by decide +kernel)
    (by decide +kernel) (by simp [Value.parameterNames]) rfl rfl heval'
  have hbodies := (hbound _ hold).1
  refine ⟨(hnew (by decide +kernel)).2, hbodies, ?_⟩
  let call := session.expression false (.chain [.symbol "f"] .nil) q'.world
  let picks := Moment.isEntry session.env (.closure .nil body 2) .nil
  let both (m : Moment) : Bool := picks m || m.rebinds 2 "f"
  let start : EvalState := ⟨q'.world.store, []⟩
  let s := finalState (call ⟨picks, .missingHalf⟩ start)
  have hmeets : Meets call picks start s := Discipline.meets_of_isAnswered
    Session.expression_tracks (by decide +kernel) (by decide +kernel)
  have hboth : Meets call both start (finalState (call ⟨both, .missingHalf⟩ start)) :=
    Discipline.meets_of_isAnswered Session.expression_tracks (by decide +kernel) (by decide +kernel)
  have hstate : finalState (call ⟨both, .missingHalf⟩ start) = s := by decide +kernel
  have hcomes : q'.ComesTo (Moment.rebinds 2 "f") session.env (.closure .nil body 2) .nil s :=
    .intro .refl List.mem_cons_self rfl
      ⟨picks, hmeets, hstate ▸ hboth, fun _ hm => Moment.exists_eq_entry hm⟩
  exact ⟨s, _, hcomes, (hbodies session.env .nil s trivial hcomes false 900 [.symbol "f"] _ rfl
    (avoids_of_isAnswered .tooDeep rfl) rfl).2⟩

end Process

end MiniScheme
