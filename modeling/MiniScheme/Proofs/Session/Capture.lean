import MiniScheme.Proofs.Eval.Quiet
import MiniScheme.Proofs.Session.Process

/-!
# Captured tables in a process

What a closure has captured changes only through calls of this closure, and what a quiet closure has
captured never changes. Both hold over any number of runs, whatever comes of them.

## Main definitions

* `Process.RunsAvoiding`: runs that do not come to certain moments.
* `Process.Stage`: the stores that there are in a process, also in the middle of a run.

## Main statements

* `Process.run_table_of_avoids`: one run without a call of a closure.
* `Process.RunsAvoiding.table_captured`: any number of them.
* `Process.Later.table_stage`: what a quiet closure has captured, for good.
-/

namespace MiniScheme

namespace Process

/-- In a process, the captured tables of some closures are as they are. -/
theorem Ordered.keeps_snapshots {l : Layout} {p : Process} (h : Ordered l p)
    {kept : List Snapshot} (hkept : ∀ k ∈ kept, l.snapshot k.place = some (k.formals, k.body))
    (htable : ∀ k ∈ kept, p.world.store.table k.place = k.table) :
    (Snapshot.discipline kept).Keeps p.world.store.tables.size p.world.store := by
  have hlt {id : TableId} {closure : Value × Value} (hid : l.snapshot id = some closure) :
      id < p.world.store.tables.size := by
    rw [← h.store.size]
    exact Layout.lt_of_snapshot hid
  refine ⟨⟨Nat.le_refl _, fun k hk => ⟨hlt (hkept k hk), htable k hk⟩⟩, ?_⟩
  intro id x v hget formals body captured hmem
  have hclosure := h.closures ⟨v, .inr ⟨id, x, hget⟩, hmem⟩
  refine ⟨hlt hclosure, fun k hk heq => ?_⟩
  rw [heq, hkept k hk] at hclosure
  cases hclosure
  exact ⟨rfl, rfl⟩

theorem Ordered.env_snapshots {l : Layout} {p : Process} (h : Ordered l p) {session : Session}
    (hmem : session ∈ p.sessions) {kept : List Snapshot}
    (hkept : ∀ k ∈ kept, l.snapshot k.place = some (k.formals, k.body)) :
    (Snapshot.discipline kept).env p.world.store.tables.size session.env := by
  intro id hid
  obtain rfl : id = session.root := by simpa [Env.tables, Session.env] using hid
  obtain ⟨hlt, hfree⟩ := h.roots hmem
  refine ⟨h.store.size ▸ hlt, fun k hk heq => ?_⟩
  rw [heq, hkept k hk] at hfree
  cases hfree

theorem Ordered.keeps_snapshot {l : Layout} {p : Process} (h : Ordered l p) {k : Snapshot}
    (hclosure : l.snapshot k.place = some (k.formals, k.body))
    (htable : p.world.store.table k.place = k.table) :
    (Snapshot.discipline [k]).Keeps p.world.store.tables.size p.world.store :=
  h.keeps_snapshots (List.forall_mem_singleton.mpr hclosure) (List.forall_mem_singleton.mpr htable)

theorem Ordered.env_snapshot {l : Layout} {p : Process} (h : Ordered l p) {session : Session}
    (hmem : session ∈ p.sessions) {k : Snapshot}
    (hclosure : l.snapshot k.place = some (k.formals, k.body)) :
    (Snapshot.discipline [k]).env p.world.store.tables.size session.env :=
  h.env_snapshots hmem (List.forall_mem_singleton.mpr hclosure)

/-- A closure that is not called in a run has its captured table as it was. -/
theorem run_table_of_avoids {l : Layout} {p : Process} (h : Ordered l p) {session : Session}
    (hmem : session ∈ p.sessions) {formals body : Value} {captured : TableId}
    (hclosure : l.snapshot captured = some (formals, body)) {traced : Bool} {source : String}
    (havoids : Avoids (session.program traced source p.world)
      (Moment.calls (.closure formals body captured)) ⟨p.world.store, []⟩) :
    (p.run session traced source).world.store.table captured =
      p.world.store.table captured := by
  let k : Snapshot := ⟨formals, body, captured, p.world.store.table captured⟩
  have hkeeps : (Snapshot.discipline [k]).Keeps p.world.store.tables.size p.world.store :=
    h.keeps_snapshot hclosure rfl
  let a : Alarm := ⟨Moment.calls k.closure, .tooDeep⟩
  have hmatched : (Snapshot.discipline [k]).Matched a a (.watched a traced p.world.limit)
      (.watched a traced p.world.limit) :=
    k.matched_of_calls (fun _ hm => hm) (fun _ hm => hm) traced p.world.limit
  have htracks := hmatched.program (h.env_snapshot hmem hclosure) source
  obtain ⟨_, -, hfinal, -⟩ := (htracks ⟨p.world.store, []⟩ hkeeps).ends.final
  have hsilent : session.program traced source p.world ⟨Moment.calls k.closure, .tooDeep⟩
      ⟨p.world.store, []⟩ = session.program traced source p.world .silent ⟨p.world.store, []⟩ :=
    Session.program_eq_of_avoids havoids .tooDeep
  rw [hsilent] at hfinal
  have htable := (hfinal.store.2 k List.mem_cons_self).2
  rw [run, Session.run_world]
  exact htable

/-- Runs in the sessions of a process, none of which comes to a moment that a test picks. -/
inductive RunsAvoiding (picks : Moment → Bool) (p : Process) : Process → Prop where
  | refl : RunsAvoiding picks p p
  | run {q : Process} {session : Session} {traced : Bool} {source : String}
      (h : RunsAvoiding picks p q) (hmem : session ∈ q.sessions)
      (havoids : Avoids (session.program traced source q.world) picks ⟨q.world.store, []⟩) :
      RunsAvoiding picks p (q.run session traced source)

namespace RunsAvoiding

theorem later {picks : Moment → Bool} {p q : Process} (h : RunsAvoiding picks p q) :
    Later p q := by
  induction h with
  | refl => exact .refl
  | run _ hmem _ ih => exact .run ih hmem _ _

/-- **Snapshots.** What a closure has captured is the same after any runs in which it is not called,
whatever comes of them: the table is, and so is what the body of the closure will see for each name
that the table binds. -/
theorem table_captured {p q : Process} (hp : p.Reached) {formals body : Value}
    {captured : TableId} (hclosure : p.HasClosure formals body captured)
    (h : RunsAvoiding (Moment.calls (.closure formals body captured)) p q) :
    q.world.store.table captured = p.world.store.table captured ∧
      ∀ x v, (p.world.store.table captured).get? x = some v →
        ∀ caller : Env, q.world.store.get? (caller.push captured) x = some v := by
  obtain ⟨l, hl⟩ := hp.ordered
  have htable : q.world.store.table captured = p.world.store.table captured := by
    induction h with
    | refl => rfl
    | @run q session traced source hruns hmem havoids ih =>
      obtain ⟨l', hle, hq⟩ := hruns.later.ordered hl
      rw [← ih]
      exact run_table_of_avoids hq hmem (hle.snapshot_eq_some (hl.closures hclosure)) havoids
  refine ⟨htable, fun x v hget caller => ?_⟩
  rw [Store.get?_push, htable, hget]
  rfl

/-- What a closure has captured survives an assignment to the name in the root. -/
theorem table_captured_of_assignment :
    let p := initial.register.run ⟨0⟩ false "(define x 1) (lambda (y) x)"
    let q := p.run ⟨0⟩ false "(set! x 2)"
    q.world.store.table 1 = p.world.store.table 1 ∧
      ∀ x v, (p.world.store.table 1).get? x = some v →
        ∀ caller : Env, q.world.store.get? (caller.push 1) x = some v := by
  intro p q
  have hp : p.Reached := .run (.register .refl) List.mem_cons_self false _
  have hclosure : p.HasClosure (.pair (.symbol "y") .nil) (.pair (.symbol "x") .nil) 1 :=
    ⟨.closure (.pair (.symbol "y") .nil) (.pair (.symbol "x") .nil) 1, .inl (by decide +kernel),
      List.mem_cons_self⟩
  have havoids : Avoids ((⟨0⟩ : Session).program false "(set! x 2)" p.world)
      (Moment.calls (.closure (.pair (.symbol "y") .nil) (.pair (.symbol "x") .nil) 1))
      ⟨p.world.store, []⟩ := avoids_of_isAnswered .tooDeep (by decide +kernel)
  exact table_captured hp hclosure (.run .refl List.mem_cons_self havoids)

end RunsAvoiding

/-! ## Quiet closures -/

/-- A store that there is in a process: as it stands, or at some moment of the next run. -/
inductive Stage (p : Process) : Store → Prop where
  | between : Stage p p.world.store
  | within {session : Session} {traced : Bool} {source : String} {picks : Moment → Bool}
      {s₁ : EvalState} (hmem : session ∈ p.sessions)
      (hmeets : Meets (session.program traced source p.world) picks ⟨p.world.store, []⟩ s₁) :
      Stage p s₁.store

/-- What a quiet closure has captured is left as it is by every program, also up to a moment at
which an alarm stops it. -/
theorem Ordered.table_program {l : Layout} {p : Process} (h : Ordered l p) {session : Session}
    (hmem : session ∈ p.sessions) {k : Snapshot} (hquiet : k.IsQuiet)
    (hclosure : l.snapshot k.place = some (k.formals, k.body))
    (htable : p.world.store.table k.place = k.table) (traced : Bool) (source : String)
    (alarm : Alarm) :
    (finalState (session.program traced source p.world alarm ⟨p.world.store, []⟩)).store.table
      k.place = k.table := by
  have hmatched : (Snapshot.discipline [k]).Matched alarm alarm
      (.watched alarm traced p.world.limit) (.watched alarm traced p.world.limit) :=
    Snapshot.matched_of_isQuiet (by simpa using hquiet) alarm traced p.world.limit
  obtain ⟨_, -, hfinal, -⟩ :=
    (hmatched.program (h.env_snapshot hmem hclosure) source ⟨p.world.store, []⟩
      (h.keeps_snapshot hclosure htable)).ends.final
  exact (hfinal.store.2 k List.mem_cons_self).2

theorem Later.table_world {p q : Process} (h : Later p q) {l : Layout} (hp : Ordered l p)
    {k : Snapshot} (hquiet : k.IsQuiet)
    (hclosure : l.snapshot k.place = some (k.formals, k.body))
    (htable : p.world.store.table k.place = k.table) :
    q.world.store.table k.place = k.table := by
  induction h with
  | refl => exact htable
  | @register q hq ih =>
    obtain ⟨l', hle, hl'⟩ := hq.ordered hp
    have hlt : k.place < q.world.store.tables.size := by
      rw [← hl'.store.size]
      exact Layout.lt_of_snapshot (hle.snapshot_eq_some hclosure)
    rw [← ih, Process.register, Session.table_register, Store.table_allocate_of_lt hlt]
  | raise _ hraise ih => rw [← ih, (Session.raiseLimit_ok hraise).1]
  | @run q session hq hmem traced source ih =>
    obtain ⟨l', hle, hl'⟩ := hq.ordered hp
    rw [Process.run, Session.run_world]
    exact hl'.table_program hmem hquiet (hle.snapshot_eq_some hclosure) ih traced source .silent

/-- What a quiet closure has captured never changes. -/
theorem Later.table_stage {p q : Process} (h : Later p q) {l : Layout} (hp : Ordered l p)
    {k : Snapshot} (hquiet : k.IsQuiet)
    (hclosure : l.snapshot k.place = some (k.formals, k.body))
    (htable : p.world.store.table k.place = k.table) {store : Store} (hstage : q.Stage store) :
    store.table k.place = k.table := by
  have hworld := h.table_world hp hquiet hclosure htable
  cases hstage with
  | between => exact hworld
  | @within session traced source picks s₁ hmem hmeets =>
    obtain ⟨l', hle, hl'⟩ := h.ordered hp
    have hprogram := hl'.table_program hmem hquiet (hle.snapshot_eq_some hclosure) hworld traced
      source ⟨picks, .tooDeep⟩
    rw [hmeets .tooDeep] at hprogram
    exact hprogram

end Process

end MiniScheme
