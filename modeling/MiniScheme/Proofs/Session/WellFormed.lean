import MiniScheme.Proofs.Eval.Faults
import MiniScheme.Proofs.Eval.Outcome
import MiniScheme.Proofs.Session.Process
import MiniScheme.Proofs.Session.Program

/-!
# Well-formed sessions

A lambda expression checks its parameters, and captures what is visible as one table, the built-ins
of the root among it. No name is ever unbound. So every closure that there is has parameters that
can be bound, and has captured a table with all built-in names, whatever has been run. No call then
fails because of the parameters, and no built-in name is found without a binding.

## Main definitions

* `Layout.wellFormed`: evaluation with such closures.
* `Process.WellFormed`: a process with such closures.

## Main statements

* `Process.Reached.wellFormed`: every process is well formed.
* `Process.wellFormed_runs`: what this means for runs.
-/

namespace MiniScheme

/-- What is wrong with the text of a program is no fault. -/
theorem Session.mistake?_ne_evaluation (limit : Nat) (source : String) (f : Fault) :
    mistake? limit source ≠ some (.evaluation f) := by
  intro h
  unfold mistake? at h
  split at h
  · cases h
  · obtain ⟨e, -, he⟩ := Option.map_eq_some_iff.mp h
    cases e <;> cases he

/-- A fault that a run ends in is one of its program. -/
theorem Session.program_of_run_fault {session : Session} {traced : Bool} {source : String}
    {world : World} {f : Fault}
    (h : (session.run traced source world).answer = .error (.evaluation f)) :
    ∃ s, session.program traced source world .silent ⟨world.store, []⟩ = .error f s := by
  have hprogram : session.program traced source world .silent =
      session.evaluated traced source world.limit := by
    rw [program, evaluation, Level.watched_silent, evaluated]
  rw [run_eq] at h
  rw [hprogram]
  cases heval : session.evaluated traced source world.limit ⟨world.store, []⟩ with
  | error g s =>
    rw [heval] at h
    cases g <;> cases h <;> exact ⟨s, rfl⟩
  | ok v s =>
    rw [heval] at h
    change reply (mistake? world.limit source) (.ok v) = .error (.evaluation f) at h
    cases hmistake : mistake? world.limit source with
    | none => rw [hmistake] at h; cases h
    | some e =>
      rw [hmistake] at h
      cases h
      exact (mistake?_ne_evaluation world.limit source f hmistake).elim

/-! ## Evaluation -/

namespace Layout

/-- Evaluation with closures whose parameters can be bound and whose captured tables have all
built-in names, in environments that end in a root which has them. -/
def wellFormed (root : TableId) : Discipline where
  __ := discipline root
  closure l formals body captured := (discipline root).closure l formals body captured ∧
    formals.checkFormals = .ok () ∧ builtinNames ⊆ l.names captured
  env l e := (discipline root).env l e ∧ builtinNames ⊆ l.names root
  closure_mono {l l' formals body captured} h hclosure := by
    obtain ⟨hsnapshot, hformals, hnames⟩ := hclosure
    have hlt : captured < l.size := lt_of_snapshot hsnapshot
    exact ⟨h.snapshot_eq_some hsnapshot, hformals, List.Subset.trans hnames (h.names hlt).subset⟩
  env_mono h he := ⟨(discipline root).env_mono h he.1,
    List.Subset.trans he.2 (h.names he.1.2.1).subset⟩
  encloses he _ := he
  assigns v hx h he hfind := (discipline root).assigns v hx h he.1 hfind
  defines v hx h he := (discipline root).defines v hx h he.1
  captures {l s e formals body es} h he hformals hbody := by
    obtain ⟨l', hle, hstore, hclosure⟩ := (discipline root).captures h he.1 hformals hbody
    refine ⟨l', hle, hstore, hclosure, hformals, fun x hx => ?_⟩
    have hcollapse : x ∈ (s.collapse e).names := by
      refine Store.mem_names_collapse ?_
      rw [he.1.1, ← h.names]
      exact he.2 hx
    rw [hstore.names, Store.table_allocate, if_pos rfl]
    exact hcollapse

/-- Evaluation keeps to closures that are well formed. -/
theorem wellFormed_matched (root : TableId) {a b : Alarm}
    (hweaker : ∀ m, b.picks m = true → a.picks m = true) (traced : Bool) (depth : Nat) :
    (wellFormed root).Matched a b (.watched a traced depth) (.watched b traced depth) :=
  Discipline.matched hweaker (fun _ _ _ => trivial) (fun _ _ _ _ => trivial)
    (fun h => h.calls fun henv _ => henv) traced depth

end Layout

/-! ## Processes -/

namespace Process

/-- Every closure has parameters that can be bound and has captured a table with all built-in names,
and so has every root. -/
structure WellFormed (p : Process) : Prop where
  closures : ∀ {formals body captured}, p.HasClosure formals body captured →
    formals.checkFormals = .ok () ∧ builtinNames ⊆ (p.world.store.table captured).names
  roots : ∀ {session}, session ∈ p.sessions →
    builtinNames ⊆ (p.world.store.table session.root).names

namespace WellFormed

variable {l : Layout} {p : Process} {session : Session}

theorem register (h : p.WellFormed) (hl : Ordered l p) : p.register.WellFormed := by
  have htable {id : TableId} (hid : id < l.size) :
      p.register.world.store.table id = p.world.store.table id := by
    rw [hl.store.size] at hid
    exact (Session.table_register p.world id).trans (Store.table_allocate_of_lt hid _)
  refine ⟨fun hclosure => ?_, fun hmem => ?_⟩
  · have hsnapshot := hl.closures hclosure.of_register
    rw [htable (Layout.lt_of_snapshot hsnapshot)]
    exact h.closures hclosure.of_register
  · rcases List.mem_cons.mp hmem with rfl | hmem
    · have hnew : p.register.world.store.table p.world.store.tables.size =
          builtinTable p.world.store.installations := by
        refine (Session.table_register p.world _).trans ?_
        rw [Store.table_allocate, if_pos rfl]
      rw [hnew, Table.names, entries_builtinTable, names_builtins]
      exact List.Subset.refl _
    · rw [htable (hl.roots hmem).1]
      exact h.roots hmem

theorem keeps (h : p.WellFormed) (hl : Ordered l p) {formals body : Value} {captured : TableId}
    (hclosure : p.HasClosure formals body captured) :
    (Layout.wellFormed session.root).closure l formals body captured := by
  obtain ⟨hformals, hnames⟩ := h.closures hclosure
  exact ⟨hl.closures hclosure, hformals, hl.store.names captured ▸ hnames⟩

theorem env (h : p.WellFormed) (hl : Ordered l p) (hmem : session ∈ p.sessions) :
    (Layout.wellFormed session.root).env l session.env :=
  ⟨hl.env hmem, hl.store.names session.root ▸ h.roots hmem⟩

/-- A process is well formed after a run, whatever comes of it. -/
theorem run (h : p.WellFormed) (hl : Ordered l p) (hmem : session ∈ p.sessions) (traced : Bool)
    (source : String) : (p.run session traced source).WellFormed := by
  have hmatched : (Layout.wellFormed session.root).Matched .silent .silent
      (.watched .silent traced p.world.limit) (.watched .silent traced p.world.limit) :=
    Layout.wellFormed_matched session.root (fun _ hm => hm) traced p.world.limit
  obtain ⟨l', hle, hstore, hclosures⟩ :=
    keeps_run (h.keeps hl) (hmatched.program (h.env hl hmem) source) hl.store
  refine ⟨fun hclosure => ?_, fun hother => ?_⟩
  · obtain ⟨-, hformals, hnames⟩ := hclosures hclosure
    exact ⟨hformals, hstore.names _ ▸ hnames⟩
  · rw [← hstore.names]
    have hroot := h.roots hother
    rw [← hl.store.names] at hroot
    exact List.Subset.trans hroot (hle.names (hl.roots hother).1).subset

end WellFormed

/-- Every process is well formed. -/
theorem Reached.wellFormed {p : Process} (h : p.Reached) : p.WellFormed := by
  induction h with
  | refl =>
    refine ⟨fun hclosure => ?_, by simp [initial]⟩
    exact (not_hasClosure_initial hclosure).elim
  | register hq ih =>
    obtain ⟨l, hl⟩ := Reached.ordered hq
    exact ih.register hl
  | @raise q _ _ world _ hraise ih =>
    have hstore := (Session.raiseLimit_ok hraise).1
    refine ⟨fun hclosure => ?_, fun hmem => hstore ▸ ih.roots hmem⟩
    exact hstore ▸ ih.closures (hclosure.mono hstore (List.Subset.refl _))
  | run hq hmem traced source ih =>
    obtain ⟨l, hl⟩ := Reached.ordered hq
    exact ih.run hl hmem traced source

variable {p : Process} {session : Session}

/-- What a process that is well formed has at every moment of a run. -/
theorem exists_layout_of_meets (hp : p.Reached) (hmem : session ∈ p.sessions) {traced : Bool}
    {source : String} {picks : Moment → Bool} {s : EvalState}
    (hmeets : Meets (session.program traced source p.world) picks ⟨p.world.store, []⟩ s) :
    ∃ m l, picks m = true ∧ m.store = s.store ∧ l.Describes s.store ∧
      (Layout.wellFormed session.root).Admits l m := by
  obtain ⟨l, hl⟩ := hp.ordered
  have hwell := hp.wellFormed
  have htracks (f : Fault) := (Layout.wellFormed_matched session.root (a := ⟨picks, f⟩)
    (b := .silent) (by simp [Alarm.silent]) traced p.world.limit).program (hwell.env hl hmem) source
  have hkeeps : (Layout.wellFormed session.root).Keeps l p.world.store :=
    ⟨hl.store, fun hget _ _ _ hclosure => hwell.keeps hl ⟨_, .inr ⟨_, _, hget⟩, hclosure⟩⟩
  obtain ⟨l₁, m, hpick, hstore, -, hkeeps₁, hm, -⟩ :=
    Discipline.ends_of_meets htracks hkeeps hmeets
  exact ⟨m, l₁, hpick, hstore, hkeeps₁.store, hm⟩

/-- In a well-formed environment, every built-in name has a binding. -/
theorem exists_get?_of_env {l : Layout} {store : Store} {env : Env} (hl : l.Describes store)
    (henv : (Layout.wellFormed session.root).env l env) {x : String} (hx : x ∈ builtinNames) :
    ∃ v, store.get? env x = some v := by
  have hroot : x ∈ (store.table env.root).names := by
    rw [henv.1.1, ← hl.names]
    exact henv.2 hx
  have hcollapse := Store.mem_names_collapse hroot
  rw [← Table.contains_iff_mem_names, Table.contains, Store.get?_collapse] at hcollapse
  exact Option.isSome_iff_exists.mp hcollapse

/-- Nothing is amiss in the course of a run. -/
theorem avoids_isAmiss (hp : p.Reached) (hmem : session ∈ p.sessions) (traced : Bool)
    (source : String) :
    Avoids (session.program traced source p.world) Moment.isAmiss ⟨p.world.store, []⟩ := by
  intro s hmeets
  obtain ⟨m, l, hpick, hstore, hl, hm⟩ := exists_layout_of_meets hp hmem hmeets
  unfold Moment.isAmiss at hpick
  split at hpick
  · next env x operands store =>
    obtain ⟨hx, hnone⟩ : x ∈ builtinNames ∧ store.get? env x = none := by simpa using hpick
    rw [← hstore] at hl
    obtain ⟨v, hv⟩ : ∃ v, store.get? env x = some v := exists_get?_of_env hl hm.1 hx
    rw [hnone] at hv
    cases hv
  · next formals body captured _ _ =>
    obtain ⟨-, hformals, -⟩ := (Discipline.allows_closure.mp hm.2.1).1
    simp [hformals, Except.isOk, Except.toBool] at hpick
  · cases hpick

/-- A run ends in no fault that is out of the regular. -/
theorem isRegular_of_run (hp : p.Reached) (hmem : session ∈ p.sessions) {traced : Bool}
    {source : String} {f : Fault}
    (h : (session.run traced source p.world).answer = .error (.evaluation f)) :
    f.isRegular = true := by
  obtain ⟨s, hs⟩ := Session.program_of_run_fault h
  rw [← Session.program_eq_of_avoids (avoids_isAmiss hp hmem traced source) .tooDeep] at hs
  exact (Level.watched_regular traced p.world.limit).evaluateForms _ _ _ _ f s hs

/-- **Well-formed sessions.** In every process that sessions and runs can come to:

* every closure, wherever it is bound or inside whichever value, has parameters that are one symbol
  or a proper chain of symbols, and has captured one table, in which every built-in name is bound;
* every root binds every built-in name.

So in every run in a session, whatever comes of it:

* a built-in name has a value in every environment in which something is evaluated;
* a call binds its operands to names, so that it cannot fail because of its parameters;
* no fault is about a binding of something else than a symbol, or about a built-in name without a
  binding. -/
theorem wellFormed_runs (hp : p.Reached) :
    (∀ formals body captured, p.HasClosure formals body captured →
      (∃ parameters : Formals, formals = parameters.toValue) ∧
        builtinNames ⊆ (p.world.store.table captured).names) ∧
    (∀ session ∈ p.sessions, builtinNames ⊆ (p.world.store.table session.root).names) ∧
    ∀ session ∈ p.sessions, ∀ (traced : Bool) (source : String),
      (∀ env v operands s,
        Enters (session.program traced source p.world) ⟨p.world.store, []⟩ env v operands s →
        (∀ x ∈ builtinNames, ∃ u, ∀ depth,
          eval traced (depth + 1) env (.symbol x) .nil s = .ok u s) ∧
        ∀ formals body captured, v = .closure formals body captured →
          ∃ parameters : Formals, formals = parameters.toValue ∧ ∀ level frame,
            Closure.bind level env frame formals operands =
              parameters.bind level env frame operands) ∧
      ∀ f, (session.run traced source p.world).answer = .error (.evaluation f) →
        (∀ v, f ≠ .bindNonSymbol v ∧ f ≠ .setNonSymbol v) ∧
          ∀ x ∈ builtinNames, f ≠ .unresolved x := by
  refine ⟨?_, fun _ hmem => hp.wellFormed.roots hmem, fun session hmem traced source => ⟨?_, ?_⟩⟩
  · intro formals body captured hclosure
    obtain ⟨hformals, hnames⟩ := hp.wellFormed.closures hclosure
    exact ⟨Value.checkFormals_eq_ok_iff.mp hformals, hnames⟩
  · rintro env v operands s ⟨picks, hmeets, hpicks⟩
    obtain ⟨m, l, hpick, -, hl, hm⟩ := exists_layout_of_meets hp hmem hmeets
    obtain ⟨store, rfl⟩ := hpicks m hpick
    refine ⟨fun x hx => ?_, ?_⟩
    · obtain ⟨u, hu⟩ := exists_get?_of_env hl hm.1 hx
      refine ⟨u, fun depth => ?_⟩
      rw [eval_succ]
      change EvalM.lookup env x s = .ok u s
      rw [EvalM.lookup_eq, hu]
    · rintro formals body captured rfl
      obtain ⟨-, hformals, -⟩ := (Discipline.allows_closure.mp hm.2.1).1
      obtain ⟨parameters, rfl⟩ := Value.checkFormals_eq_ok_iff.mp hformals
      exact ⟨parameters, rfl, fun level frame => parameters.bind_toValue operands⟩
  · intro f hf
    have hregular := isRegular_of_run hp hmem hf
    refine ⟨fun v => ⟨?_, ?_⟩, fun x hx => ?_⟩
    · rintro rfl
      cases hregular
    · rintro rfl
      cases hregular
    · rintro rfl
      simp [Fault.isRegular, hx] at hregular

/-- A closure is in order after a run that failed, a call of it binds its operands to names, and one
with too few operands fails because of these. -/
theorem wellFormed_runs_of_closure :
    let session : Session := ⟨0⟩
    let p := initial.register.run session false
      "(define f (lambda (x) x)) (apply lambda (list (list 1) 2))"
    let formals := Value.chain [.symbol "x"] .nil
    (∃ parameters : Formals, formals = parameters.toValue) ∧
      builtinNames ⊆ (p.world.store.table 1).names ∧
      (∃ parameters : Formals, ∀ level frame,
        Closure.bind level session.env frame formals (.chain [.integer 1] .nil) =
          parameters.bind level session.env frame (.chain [.integer 1] .nil)) ∧
      ∃ fault, (session.run false "(f)" p.world).answer = .error (.evaluation fault) ∧
        ∀ v, fault ≠ .bindNonSymbol v ∧ fault ≠ .setNonSymbol v := by
  intro session p formals
  have hp : p.Reached := .run (.register .refl) List.mem_cons_self false _
  have hmem : session ∈ p.sessions := List.mem_cons_self
  let f := Value.closure formals (.chain [.symbol "x"] .nil) 1
  have hbound : (p.world.store.table 0).get? "f" = some f := by decide +kernel
  let program := session.program false "(f 1)" p.world
  let picks := Moment.isEntry session.env f (.chain [.integer 1] .nil)
  have hmeets : Meets program picks ⟨p.world.store, []⟩
      (finalState (program ⟨picks, .missingHalf⟩ ⟨p.world.store, []⟩)) :=
    Session.program_meets (by decide +kernel) (by decide +kernel)
  have hfault : (session.run false "(f)" p.world).answer =
      .error (.evaluation (.operandCount 1 0)) := by decide +kernel
  obtain ⟨hclosures, -, hruns⟩ := wellFormed_runs hp
  obtain ⟨hformals, hnames⟩ := hclosures _ _ _ ⟨f, .inr ⟨0, "f", hbound⟩, List.mem_cons_self⟩
  obtain ⟨parameters, -, hbind⟩ := ((hruns session hmem false "(f 1)").1 _ _ _ _
    (enters_of_meets hmeets)).2 _ _ _ rfl
  refine ⟨hformals, hnames, ⟨parameters, hbind⟩, _, hfault, ?_⟩
  exact ((hruns session hmem false "(f)").2 _ hfault).1

end Process

end MiniScheme
