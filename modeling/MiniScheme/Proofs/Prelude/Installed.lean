import MiniScheme.Proofs.Prelude.Core
import MiniScheme.Proofs.Session.Capture

/-!
# The core prelude in a session

The procedures of the core prelude capture the built-ins as they are when the session is opened.
Their bodies change nothing, so what they have captured never changes, whatever programs do to the
names in the root. They answer correctly at every later moment and wherever they are called.

## Main definitions

* `Prelude.Definition.Made`: a procedure that has been defined.
* `Prelude.Installed`: a root with some of the procedures.

## Main statements

* `Prelude.installed_of_start`: a session with the core prelude has all of them.
* `Prelude.Answers.eval_of_later`: they are correct for good.
-/

namespace MiniScheme

namespace Prelude

def Definition.closure (d : Definition) (captured : TableId) : Value :=
  .closure d.formals (.chain [d.body] .nil) captured

/-- A definition has been made: the root binds its name to a closure that has captured the built-ins
in a table of its own. -/
structure Definition.Made (d : Definition) (installation : Nat) (root : TableId) (s : Store)
    (captured : TableId) : Prop where
  bound : (s.table root).get? d.name = some (d.closure captured)
  lt : captured < s.tables.size
  ne : captured ≠ root
  shows : ShowsBuiltins installation (s.table captured).get?

/-- A root that has the built-ins and in which some definitions have been made. -/
structure Installed (installation : Nat) (root : TableId) (ds : List Definition) (s : Store) :
    Prop where
  lt : root < s.tables.size
  shows : ShowsBuiltins installation (s.table root).get?
  made : ∀ d ∈ ds, ∃ captured, d.Made installation root s captured

/-! ## Evaluating a definition -/

/-- A definition that is evaluated in a root captures the root and binds its name there. -/
theorem Definition.store_of_eval {d : Definition} {installation : Nat} {root : TableId}
    {traced : Bool} {depth : Nat} {v : Value} {s s' : EvalState}
    (hshows : ShowsBuiltins installation (s.store.table root).get?)
    (h : eval traced depth ⟨[], root⟩ d.form .nil s = .ok v s') :
    s'.store = (s.store.allocate (s.store.table root)).2.define root d.name
      (d.closure s.store.tables.size) := by
  have hdefine : s.store.get? ⟨[], root⟩ "define" = some (.form .define installation) :=
    hshows.form .define
  have hlambda : s.store.get? ⟨[], root⟩ "lambda" = some (.form .lambda installation) :=
    hshows.form .lambda
  obtain ⟨rfl, hstore⟩ := eval_definition_ok hdefine hlambda h
  exact hstore

/-- One more definition leaves those that have been made as they are. -/
theorem Definition.Made.define {d : Definition} {installation : Nat} {root captured : TableId}
    {s : Store} (h : d.Made installation root s captured) (hroot : root < s.tables.size) (t : Table)
    {x : String} (hx : d.name ≠ x) (v : Value) :
    d.Made installation root ((s.allocate t).2.define root x v) captured where
  bound := by
    rw [Store.table_define _ _ _ _ (Store.lt_size_allocate hroot t), if_pos rfl, Table.get?_insert,
      if_neg hx, Store.table_allocate_of_lt hroot]
    exact h.bound
  lt := by
    rw [Store.size_define]
    exact Store.lt_size_allocate h.lt t
  ne := h.ne
  shows := by
    rw [Store.table_define_of_ne h.ne, Store.table_allocate_of_lt h.lt]
    exact h.shows

/-- Evaluating one definition adds it to those that have been made. -/
theorem Installed.eval {installation : Nat} {root : TableId} {ds : List Definition}
    {d : Definition} {traced : Bool} {depth : Nat} {v : Value} {s s' : EvalState}
    (h : Installed installation root ds s.store) (hbuiltin : d.name ∉ builtinNames)
    (hfresh : ∀ d' ∈ ds, d'.name ≠ d.name)
    (heval : MiniScheme.eval traced depth ⟨[], root⟩ d.form .nil s = .ok v s') :
    Installed installation root (d :: ds) s'.store := by
  rw [d.store_of_eval h.shows heval]
  have hroot := Store.lt_size_allocate h.lt (s.store.table root)
  have htable : (((s.store.allocate (s.store.table root)).2.define root d.name
      (d.closure s.store.tables.size)).table root) =
      (s.store.table root).insert d.name (d.closure s.store.tables.size) := by
    rw [Store.table_define _ _ _ _ hroot, if_pos rfl, Store.table_allocate_of_lt h.lt]
  refine ⟨by rwa [Store.size_define], ?_, List.forall_mem_cons.mpr ⟨?_, ?_⟩⟩
  · rw [htable]
    exact h.shows.insert hbuiltin _
  · have hne : s.store.tables.size ≠ root := Nat.ne_of_gt h.lt
    refine ⟨_, by rw [htable, Table.get?_insert, if_pos rfl], by simp, hne, ?_⟩
    rw [Store.table_define_of_ne hne, Store.table_allocate, if_pos rfl]
    exact h.shows
  · intro d' hd'
    obtain ⟨captured, hmade⟩ := h.made d' hd'
    exact ⟨captured, hmade.define h.lt _ (hfresh d' hd') _⟩

/-- Evaluating some definitions makes them all. -/
theorem Installed.evaluateForms {installation : Nat} {root : TableId} {done todo : List Definition}
    {traced : Bool} {depth : Nat} {last v : Value} {s s' : EvalState}
    (h : Installed installation root done s.store) (hbuiltin : ∀ d ∈ todo, d.name ∉ builtinNames)
    (hnodup : (todo.map Definition.name).Nodup)
    (hfresh : ∀ d ∈ todo, ∀ d' ∈ done, d'.name ≠ d.name)
    (heval : Session.evaluateForms (.ofDepth traced depth) ⟨[], root⟩ last
      (todo.map Definition.form) s = .ok v s') :
    Installed installation root (todo.reverse ++ done) s'.store := by
  -- on the definitions to come: each is evaluated in a store in which those before it are installed
  induction todo generalizing done last s with
  | nil =>
    cases heval
    exact h
  | cons d todo ih =>
    obtain ⟨_, s₁, hread, heval⟩ := EvalM.ok_of_bind heval
    obtain ⟨u, s₂, hform, heval⟩ := EvalM.ok_of_bind heval
    obtain ⟨_, s₃, hevaluated, heval⟩ := EvalM.ok_of_bind heval
    rw [← Level.store_of_report hread] at h
    obtain ⟨hd, hbuiltin⟩ := List.forall_mem_cons.mp hbuiltin
    obtain ⟨hfresh₁, hfresh⟩ := List.forall_mem_cons.mp hfresh
    simp only [List.map_cons, List.nodup_cons] at hnodup
    have hnext := h.eval hd hfresh₁ hform
    rw [← Level.store_of_report hevaluated] at hnext
    have hdone : ∀ e ∈ todo, ∀ d' ∈ d :: done, d'.name ≠ e.name := by
      intro e he
      refine List.forall_mem_cons.mpr ⟨fun heq => hnodup.1 ?_, hfresh e he⟩
      exact heq ▸ List.mem_map_of_mem he
    rw [List.reverse_cons, List.append_assoc]
    exact ih hnext hbuiltin hnodup.2 hdone heval

/-! ## Opening a session -/

/-- A root that has just been registered has the built-ins. -/
theorem installed_register (world : World) :
    Installed world.store.installations (Session.register world).1.root []
      (Session.register world).2.store := by
  refine ⟨?_, ?_, by simp⟩
  · rw [Session.tables_register, Array.size_push]
    exact Nat.lt_succ_self _
  · rw [Session.table_register, Store.table_allocate, Session.root_register, if_pos rfl]
    exact .self _

/-- A session that could be opened with the core prelude has the built-ins and all its
procedures. -/
theorem installed_of_start {p : Process} (hp : p.Reached) {prelude : Prelude} {setting : String}
    {traced : Bool} {session : Session}
    (hsource : (Session.preludeSource? prelude).2 = some core)
    (h : (Session.start prelude setting traced p.world).answer = .ok session) :
    Installed p.world.store.installations session.root definitions.reverse
      (p.start prelude setting traced).world.store := by
  obtain ⟨raised, v, hstore, hlimit, hanswer, hworld⟩ := Session.run_of_start hsource h
  have hread : Source.readAll raised.limit core = .ok (definitions.map Definition.form) :=
    readAll_core (Nat.le_trans (Process.Later.limit_le hp) hlimit)
  have hinstalled : Installed p.world.store.installations session.root [] raised.store := by
    rw [Session.eq_of_start h, hstore]
    exact installed_register p.world
  rw [Session.run_of_readAll hread] at hanswer hworld
  cases heval : Session.evaluateForms (.ofDepth traced raised.limit) session.env .nil
    (definitions.map Definition.form) ⟨raised.store, []⟩ with
  | error f s => simp [heval] at hanswer
  | ok u s =>
    have hfinal : (p.start prelude setting traced).world.store = s.store := by
      rw [Process.start, hworld, heval]
    rw [hfinal, ← List.append_nil definitions.reverse]
    exact hinstalled.evaluateForms (fun d hd => (names_of_mem_definitions hd).1) nodup_definitions
      (by simp) heval

/-- A session that could be opened without a prelude or with the core prelude has the built-ins. -/
theorem shows_of_start {p : Process} (hp : p.Reached) {prelude : Prelude} {setting : String}
    {traced : Bool} {session : Session}
    (hsource : ∀ source ∈ (Session.preludeSource? prelude).2, source = core)
    (h : (Session.start prelude setting traced p.world).answer = .ok session) :
    ShowsBuiltins p.world.store.installations
      ((p.start prelude setting traced).world.store.table session.root).get? := by
  cases hprelude : (Session.preludeSource? prelude).2 with
  | some source =>
    obtain rfl := hsource source hprelude
    exact (installed_of_start hp hprelude h).shows
  | none =>
    obtain rfl := Session.eq_of_start h
    rcases Session.start_cases prelude setting traced p.world with
      ⟨⟨e, he⟩, -⟩ | ⟨_, _, raised, hraise, ⟨-, -, hworld⟩ | ⟨source, hsome, -⟩⟩
    · rw [he] at h
      cases h
    · rw [Process.start, hworld, (Session.raiseLimit_ok hraise).1]
      exact (installed_register p.world).shows
    · rw [hprelude] at hsome
      cases hsome

/-! ## For good -/

/-- What a procedure of the core prelude has captured is quiet. -/
theorem Definition.isQuiet {d : Definition} (hd : d ∈ definitions) {installation : Nat}
    {table : Table} (h : ShowsBuiltins installation table.get?) (captured : TableId) :
    (⟨d.formals, .chain [d.body] .nil, captured, table⟩ : Snapshot).IsQuiet := by
  intro es hes e he
  obtain rfl : [d.body] = es := Except.ok.inj hes
  obtain rfl := List.mem_singleton.mp he
  rw [parameterNames_formals]
  exact d.quiet hd h

/-- A table with the built-ins is in the store. -/
theorem lt_size_of_shows {installation : Nat} {store : Store} {id : TableId}
    (h : ShowsBuiltins installation (store.table id).get?) : id < store.tables.size :=
  Store.lt_size_of_get? (h.form .define)

/-- What a procedure of the core prelude has captured has the built-ins for good. -/
theorem Definition.Made.shows_of_stage {d : Definition} {installation : Nat} {p q : Process}
    {root captured : TableId} (h : d.Made installation root p.world.store captured)
    (hd : d ∈ definitions) {l : Layout} (hp : Process.Ordered l p) (hlater : p.Later q)
    {store : Store} (hstage : q.Stage store) :
    ShowsBuiltins installation (store.table captured).get? := by
  let k : Snapshot := ⟨d.formals, .chain [d.body] .nil, captured, p.world.store.table captured⟩
  have hquiet : k.IsQuiet := d.isQuiet hd h.shows captured
  have hclosure : l.snapshot captured = some (d.formals, .chain [d.body] .nil) :=
    hp.closures ⟨d.closure captured, .inr ⟨_, _, h.bound⟩, List.mem_cons_self⟩
  have htable : store.table captured = k.table := hlater.table_stage hp hquiet hclosure rfl hstage
  rw [htable]
  exact h.shows

/-- **The core prelude.** In every session that was opened with the core prelude, its names are
bound to closures that answer correctly for good: after whatever programs, at every moment of the
next one, in every environment, and with whatever is bound to the names that their bodies use. A
call changes no table that is there. The depth has to suffice for the call, and if events are
reported, the operands have to be writable. -/
theorem Answers.eval_of_later {p : Process} (hp : p.Reached) {prelude : Prelude}
    {setting : String} {traced : Bool} {session : Session}
    (hsource : (Session.preludeSource? prelude).2 = some core)
    (hstart : (Session.start prelude setting traced p.world).answer = .ok session)
    {name : String} {operands : List Value} {answer : Value}
    (h : Answers name operands answer) :
    ∃ formals body captured,
      ((p.start prelude setting traced).world.store.table session.root).get? name =
        some (.closure formals body captured) ∧
      ∀ q, Process.Later (p.start prelude setting traced) q → ∀ store, q.Stage store →
        ∀ (caller : Env) (traced' : Bool) (depth : Nat) (events : List Event), 6 ≤ depth →
        (traced' = true → ∀ e ∈ operands, e.obstacle? depth = none) →
        ∃ s', eval traced' depth caller (.closure formals body captured) (.chain operands .nil)
            ⟨store, events⟩ = .ok answer s' ∧
          ∀ id < store.tables.size, s'.store.table id = store.table id := by
  obtain ⟨d, hd, rfl, hgives⟩ := h.gives
  obtain ⟨captured, hmade⟩ :=
    (installed_of_start hp hsource hstart).made d (List.mem_reverse.mpr hd)
  obtain ⟨l, hl⟩ := hp.ordered_start prelude setting traced
  refine ⟨d.formals, .chain [d.body] .nil, captured, hmade.bound, ?_⟩
  intro q hlater store hstage caller traced' depth events hdepth hwords
  have hshows := hmade.shows_of_stage hd hl hlater hstage
  obtain ⟨rest, rfl⟩ := Nat.exists_eq_add_of_le' hdepth
  obtain ⟨store', hcall, htables⟩ := hgives (lt_size_of_shows hshows) hshows hwords
  obtain ⟨events', heval⟩ := hcall events
  exact ⟨⟨store', events'⟩, heval, htables⟩

theorem answer_start_text (source : String) (traced : Bool) (world : World) :
    (Session.start (.text source) "" traced world).answer =
      ((Session.register world).1.run traced source (Session.register world).2).answer.map
        fun _ => (Session.register world).1 := by
  have hlimit : Settings.limit? "" = .ok none := by decide
  simp [Session.start, hlimit, Session.raiseLimit, Session.preludeSource?]

/-- A first session can be opened with the core prelude. -/
theorem start_core : (Session.start (.text core) "" false .initial).answer = .ok ⟨0⟩ := by
  rw [answer_start_text, Session.run_of_readAll (readAll_core (Nat.le_refl 1000))]
  rfl

/-- A procedure of the core prelude survives the loss of the names that its body uses. -/
theorem Answers.eval_of_later_of_lost_names :
    let p := Process.initial.start (.text core) "" false
    let q := p.run ⟨0⟩ false "(define not 1) (set! < 2)"
    ∃ formals body captured,
      (p.world.store.table 0).get? ">=" = some (.closure formals body captured) ∧
      ∃ s', eval false 6 ⟨[], 0⟩ (.closure formals body captured)
          (.chain [.integer 2, .integer 3] .nil) ⟨q.world.store, []⟩ = .ok (.boolean false) s' ∧
        ∀ id < q.world.store.tables.size, s'.store.table id = q.world.store.table id := by
  intro p q
  have hmem : (⟨0⟩ : Session) ∈ p.sessions := Process.mem_sessions_start start_core
  have hsource : (Session.preludeSource? (.text core)).2 = some core := rfl
  obtain ⟨formals, body, captured, hbound, heval⟩ :=
    (Answers.atLeast 2 3).eval_of_later .refl hsource start_core
  refine ⟨formals, body, captured, hbound, ?_⟩
  exact heval q (.run .refl hmem false _) _ .between ⟨[], 0⟩ false 6 [] (Nat.le_refl 6) (by simp)

end Prelude

end MiniScheme
