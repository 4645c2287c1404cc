import MiniScheme.Proofs.Eval.Moments
import MiniScheme.Proofs.Session.Layout

/-!
# Processes

A process is a world with its sessions, in which sessions are opened and programs are run one after
the other, in any order and whatever comes of them. Everything that a process can come to has a
layout in which each closure is known by the table that it captured, and in which no closure has
captured the root of a session.

## Main definitions

* `builtinTable`: the table of a root that was just registered.
* `Process`, `Process.Later`: processes and how they go on.
* `Process.Holds`, `Process.HasClosure`: the values and the closures that there are.
* `Process.Ordered`: a process with its layout.

## Main statements

* `Session.start_cases`: what comes of opening a session.
* `Process.keeps_of_ends`, `Process.keeps_run`: what an evaluation and a run leave in order.
* `Process.Later.ordered`: a layout grows as its process goes on.
* `Process.Later.start`: opening a session with a prelude is one way to go on.
-/

namespace MiniScheme

/-! ## Opening a session -/

def builtinTable (installation : Nat) : Table := Table.empty.insertAll (builtins installation)

theorem nodup_builtins (installation : Nat) : ((builtins installation).map Prod.fst).Nodup := by
  rw [names_builtins]
  exact builtinNames_nodup

theorem entries_builtinTable (installation : Nat) :
    (builtinTable installation).entries = builtins installation :=
  Table.entries_insertAll_empty (nodup_builtins installation)

theorem closures_of_mem_builtins {installation : Nat} {entry : String × Value}
    (h : entry ∈ builtins installation) : entry.2.closures = [] := by
  simp only [builtins, List.mem_append, List.mem_map, List.mem_cons, List.not_mem_nil,
    or_false] at h
  rcases h with (⟨f, -, rfl⟩ | ⟨p, -, rfl⟩) | rfl | rfl
  all_goals rfl

theorem closures_builtinTable {installation : Nat} {x : String} {v : Value}
    (h : (builtinTable installation).get? x = some v) : v.closures = [] := by
  rw [Table.get?, entries_builtinTable] at h
  exact closures_of_mem_builtins (Table.mem_of_findValue h)

namespace Session

@[simp] theorem root_register (world : World) :
    (register world).1.root = world.store.tables.size := rfl

theorem tables_register (world : World) :
    (register world).2.store.tables =
      world.store.tables.push (builtinTable world.store.installations) := by
  simp only [register, Store.allocate, Store.install]
  apply Array.ext_getElem?
  intro i
  rw [Array.getElem?_modify]
  by_cases hi : world.store.tables.size = i
  · subst hi
    simp [builtinTable]
  · simp [hi, Array.getElem?_push, Ne.symm hi]

theorem table_register (world : World) (id : TableId) :
    (register world).2.store.table id =
      (world.store.allocate (builtinTable world.store.installations)).2.table id := by
  simp only [Store.table, tables_register, Store.allocate]

/-- Raising the limit changes nothing else. -/
theorem raiseLimit_ok {limit : Option Nat} {events : List Event} {world raised : World}
    (h : raiseLimit limit world = (events, .ok raised)) :
    raised.store = world.store ∧ world.limit ≤ raised.limit := by
  unfold raiseLimit at h
  split at h
  · cases h
    exact ⟨rfl, Nat.le_refl _⟩
  · split at h
    · next hlt =>
      split at h
      · cases h
        exact ⟨rfl, Nat.le_of_lt hlt⟩
      · cases h
    · cases h
      exact ⟨rfl, Nat.le_refl _⟩

/-- Opening a session fails right after the registration, or it raises the limit, and then it runs
the prelude if there is one. -/
theorem start_cases (prelude : Prelude) (setting : String) (traced : Bool) (world : World) :
    let session := (register world).1
    let outcome := start prelude setting traced world
    ((∃ e, outcome.answer = .error e) ∧ outcome.world = (register world).2) ∨
      ∃ limit events raised, raiseLimit limit (register world).2 = (events, .ok raised) ∧
        (((preludeSource? prelude).2 = none ∧ outcome.answer = .ok session ∧
            outcome.world = raised) ∨
          ∃ source, (preludeSource? prelude).2 = some source ∧
            outcome.answer = (session.run traced source raised).answer.map (fun _ => session) ∧
            outcome.world = (session.run traced source raised).world) := by
  intro session outcome
  simp only [session, outcome, start]
  generalize register world = registered
  obtain ⟨session, world⟩ := registered
  dsimp only
  cases Settings.limit? setting with
  | error e => exact .inl ⟨⟨_, rfl⟩, rfl⟩
  | ok limit =>
    dsimp only
    rcases hraise : raiseLimit limit world with ⟨events, e | raised⟩
    · exact .inl ⟨⟨_, rfl⟩, rfl⟩
    · refine .inr ⟨limit, events, raised, hraise, ?_⟩
      rcases preludeSource? prelude with ⟨announced, _ | source⟩
      · exact .inl ⟨rfl, rfl, rfl⟩
      · exact .inr ⟨source, rfl, rfl, rfl⟩

/-- A session that could be opened is the one that was registered. -/
theorem eq_of_start {prelude : Prelude} {setting : String} {traced : Bool} {world : World}
    {session : Session} (h : (start prelude setting traced world).answer = .ok session) :
    session = (register world).1 := by
  rcases start_cases prelude setting traced world with
    ⟨⟨e, he⟩, -⟩ | ⟨_, _, raised, -, ⟨-, hok, -⟩ | ⟨source, -, hok, -⟩⟩
  · rw [he] at h
    cases h
  · rw [hok] at h
    exact (Except.ok.inj h).symm
  · rw [hok] at h
    cases hanswer : ((register world).1.run traced source raised).answer with
    | error e => simp [hanswer, Except.map] at h
    | ok v => simpa [hanswer, Except.map] using h.symm

/-- A session that could be opened has run its prelude to the end. -/
theorem run_of_start {prelude : Prelude} {setting source : String} {traced : Bool} {world : World}
    {session : Session} (hsource : (preludeSource? prelude).2 = some source)
    (h : (start prelude setting traced world).answer = .ok session) :
    ∃ raised v, raised.store = (register world).2.store ∧ world.limit ≤ raised.limit ∧
      (session.run traced source raised).answer = .ok v ∧
      (start prelude setting traced world).world = (session.run traced source raised).world := by
  obtain rfl := eq_of_start h
  rcases start_cases prelude setting traced world with
    ⟨⟨e, he⟩, -⟩ | ⟨_, _, raised, hraise, ⟨hnone, -, -⟩ | ⟨_, hsome, hanswer, hworld⟩⟩
  · rw [he] at h
    cases h
  · rw [hnone] at hsource
    cases hsource
  · obtain rfl := Option.some.inj (hsource.symm.trans hsome)
    obtain ⟨hstore, hlimit⟩ := raiseLimit_ok hraise
    cases hrun : ((register world).1.run traced source raised).answer with
    | error e => simp [hanswer, hrun, Except.map] at h
    | ok v => exact ⟨raised, v, hstore, hlimit, hrun, hworld⟩

/-- A program that can be read is evaluated as a whole. -/
theorem run_of_readAll {session : Session} {traced : Bool} {source : String} {world : World}
    {es : List Value} (h : Source.readAll world.limit source = .ok es) :
    session.run traced source world =
      match evaluateForms (.ofDepth traced world.limit) session.env .nil es ⟨world.store, []⟩ with
      | .ok v s => ⟨.ok v, s.events.reverse, { world with store := s.store }⟩
      | .error f s => ⟨.error (.ofFault f), s.events.reverse, { world with store := s.store }⟩ := by
  obtain ⟨tokens, htokens, herror, rfl⟩ := Source.readAll_eq_ok_iff.mp h
  unfold run
  rw [htokens]
  dsimp only
  cases evaluateForms (.ofDepth traced world.limit) session.env .nil
    ((Cursor.ofTokens tokens).readAll world.limit).forms ⟨world.store, []⟩ with
  | ok v s => simp only [herror]
  | error f s => simp only

end Session

/-- A world with the sessions that have been registered in it and the answers of their programs. -/
structure Process where
  world : World
  sessions : List Session
  answers : List Value

namespace Process

def initial : Process := ⟨.initial, [], []⟩

def register (p : Process) : Process :=
  let (session, world) := Session.register p.world
  ⟨world, session :: p.sessions, p.answers⟩

def run (p : Process) (session : Session) (traced : Bool) (source : String) : Process :=
  let outcome := session.run traced source p.world
  ⟨outcome.world, p.sessions, outcome.answer.toOption.toList ++ p.answers⟩

def start (p : Process) (prelude : Prelude) (setting : String) (traced : Bool) : Process :=
  let outcome := Session.start prelude setting traced p.world
  ⟨outcome.world, outcome.answer.toOption.toList ++ p.sessions, p.answers⟩

theorem mem_sessions_start {p : Process} {prelude : Prelude} {setting : String} {traced : Bool}
    {session : Session}
    (h : (Session.start prelude setting traced p.world).answer = .ok session) :
    session ∈ (p.start prelude setting traced).sessions := by
  simp [start, h, Except.toOption]

/-- What a process may come to: sessions are registered, the limit is raised, and programs are run,
in any order. -/
inductive Later (p : Process) : Process → Prop where
  | refl : Later p p
  | register {q : Process} (h : Later p q) : Later p q.register
  | raise {q : Process} {limit : Option Nat} {events : List Event} {world : World} (h : Later p q)
      (hraise : Session.raiseLimit limit q.world = (events, .ok world)) :
      Later p { q with world }
  | run {q : Process} {session : Session} (h : Later p q) (hmem : session ∈ q.sessions)
      (traced : Bool) (source : String) : Later p (q.run session traced source)

def Reached (p : Process) : Prop := Later initial p

/-- A value that is bound somewhere, or that some program was answered with. -/
def Holds (p : Process) (v : Value) : Prop :=
  v ∈ p.answers ∨ ∃ id x, (p.world.store.table id).get? x = some v

def HasClosure (p : Process) (formals body : Value) (captured : TableId) : Prop :=
  ∃ v, p.Holds v ∧ .closure formals body captured ∈ v.closures

/-! ## The closures of a process -/

theorem not_hasClosure_initial {formals body : Value} {captured : TableId} :
    ¬ initial.HasClosure formals body captured := by
  rintro ⟨v, hv | ⟨id, x, hget⟩, -⟩
  · cases hv
  · rw [Store.table_of_size_le (Nat.zero_le id)] at hget
    cases hget

/-- The closures are those in the store and in the answers. -/
theorem HasClosure.mono {p q : Process} {formals body : Value} {captured : TableId}
    (h : p.HasClosure formals body captured) (hstore : p.world.store = q.world.store)
    (hanswers : p.answers ⊆ q.answers) : q.HasClosure formals body captured := by
  obtain ⟨v, hv, hmem⟩ := h
  refine ⟨v, ?_, hmem⟩
  rw [Holds, hstore] at hv
  exact hv.imp_left fun hv => hanswers hv

/-- Registering a session makes no closures. -/
theorem HasClosure.of_register {p : Process} {formals body : Value} {captured : TableId}
    (h : p.register.HasClosure formals body captured) : p.HasClosure formals body captured := by
  obtain ⟨v, hv, hmem⟩ := h
  refine ⟨v, ?_, hmem⟩
  rcases hv with hv | ⟨id, x, hget⟩
  · exact .inl hv
  · change ((Session.register p.world).2.store.table id).get? x = some v at hget
    rw [Session.table_register, Store.table_allocate] at hget
    split at hget
    · rw [closures_builtinTable hget] at hmem
      cases hmem
    · exact .inr ⟨id, x, hget⟩

section Keeps

variable {D : Discipline} {w : D.World} {p q : Process}
  (hclosures : ∀ {formals body captured}, p.HasClosure formals body captured →
    D.closure w formals body captured)
include hclosures

theorem keeps_of_closures (hstore : D.store w p.world.store) : D.Keeps w p.world.store :=
  ⟨hstore, fun hget _ _ _ hmem => hclosures ⟨_, .inr ⟨_, _, hget⟩, hmem⟩⟩

/-- What is in order before an evaluation is so after it, whatever comes of it: the store, and every
closure that there is. -/
theorem keeps_of_ends {r : EStateM.Result Fault EvalState Value}
    (h : Discipline.Ends D.Allows w r) (hstore : q.world.store = (finalState r).store)
    (hanswers : ∀ v ∈ q.answers, v ∈ p.answers ∨ ∃ s, r = .ok v s) :
    ∃ w', D.le w w' ∧ D.store w' q.world.store ∧
      ∀ {formals body captured}, q.HasClosure formals body captured →
        D.closure w' formals body captured := by
  obtain ⟨w', hle, hfinal, hanswer⟩ := h.final
  rw [← hstore] at hfinal
  refine ⟨w', hle, hfinal.store, ?_⟩
  rintro formals body captured ⟨v, hv | ⟨id, x, hget⟩, hclosure⟩
  · rcases hanswers v hv with hv | ⟨s, hs⟩
    · exact D.closure_mono hle (hclosures ⟨v, .inl hv, hclosure⟩)
    · exact hanswer v s hs formals body captured hclosure
  · exact hfinal.values hget formals body captured hclosure

theorem keeps_run {session : Session} {traced : Bool} {source : String}
    (htracks : Discipline.Tracks .silent .silent w (session.program traced source p.world .silent)
      (session.program traced source p.world .silent) D.Allows)
    (hstore : D.store w p.world.store) :
    ∃ w', D.le w w' ∧ D.store w' (p.run session traced source).world.store ∧
      ∀ {formals body captured}, (p.run session traced source).HasClosure formals body captured →
        D.closure w' formals body captured := by
  have hends := (htracks ⟨p.world.store, []⟩ (keeps_of_closures hclosures hstore)).ends
  refine keeps_of_ends hclosures hends ?_ fun v hv => ?_
  · rw [Process.run, Session.run_world]
  · rcases List.mem_append.mp hv with hv | hv
    · have hok : (session.run traced source p.world).answer = .ok v := by
        cases hrun : (session.run traced source p.world).answer with
        | error e => simp [hrun, Except.toOption] at hv
        | ok u => simpa [hrun, Except.toOption, eq_comm] using hv
      exact .inr (Session.program_of_run hok)
    · exact .inl hv

end Keeps

/-! ## The layout of a process -/

/-- A layout that describes the store, knows all closures, and in which the roots are free. -/
structure Ordered (l : Layout) (p : Process) : Prop where
  store : l.Describes p.world.store
  closures : ∀ {formals body captured}, p.HasClosure formals body captured →
    l.snapshot captured = some (formals, body)
  roots : ∀ {session}, session ∈ p.sessions → l.Free session.root

namespace Ordered

variable {l : Layout} {p : Process}

theorem keeps (h : Ordered l p) (root : TableId) :
    (Layout.discipline root).Keeps l p.world.store :=
  keeps_of_closures (D := Layout.discipline root) h.closures h.store

theorem env (h : Ordered l p) {session : Session} (hmem : session ∈ p.sessions) :
    (Layout.discipline session.root).env l session.env := ⟨rfl, h.roots hmem⟩

theorem register (h : Ordered l p) :
    Ordered (l.add (builtinTable p.world.store.installations) none) p.register where
  store := by
    have hadd := h.store.add (builtinTable p.world.store.installations) none
    refine ⟨?_, fun id => ?_⟩
    · rw [hadd.size]
      simp [Process.register, Session.tables_register]
    · rw [hadd.names]
      exact congrArg Table.names (Session.table_register p.world id).symm
  closures hclosure := (l.le_add _ none).snapshot_eq_some (h.closures hclosure.of_register)
  roots := by
    intro session hmem
    rcases List.mem_cons.mp hmem with rfl | hmem
    · change (l.add _ none).Free p.world.store.tables.size
      rw [← h.store.size]
      exact ⟨Nat.lt_succ_self _, if_pos rfl⟩
    · exact (l.le_add _ none).free (h.roots hmem)

/-- Raising the limit changes nothing in the layout. -/
theorem raise (h : Ordered l p) {limit : Option Nat} {events : List Event} {world : World}
    (hraise : Session.raiseLimit limit p.world = (events, .ok world)) :
    Ordered l { p with world } := by
  have hstore := (Session.raiseLimit_ok hraise).1
  refine ⟨hstore ▸ h.store, fun hclosure => ?_, h.roots⟩
  exact h.closures (hclosure.mono hstore (List.Subset.refl _))

/-- The layout grows in a run, whatever comes of it. -/
theorem run (h : Ordered l p) {session : Session} (hmem : session ∈ p.sessions) (traced : Bool)
    (source : String) : ∃ l', l.Le l' ∧ Ordered l' (p.run session traced source) := by
  have hmatched : (Layout.discipline session.root).Matched .silent .silent
      (.watched .silent traced p.world.limit) (.watched .silent traced p.world.limit) :=
    Layout.matched session.root (fun _ hm => hm) traced p.world.limit
  obtain ⟨l', hle, hstore, hclosures⟩ :=
    keeps_run h.closures (hmatched.program (h.env hmem) source) h.store
  exact ⟨l', hle, hstore, hclosures, fun hs => hle.free (h.roots hs)⟩

end Ordered

/-- A layout grows as its process goes on. -/
theorem Later.ordered {p q : Process} (h : Later p q) {l : Layout} (hp : Ordered l p) :
    ∃ l', l.Le l' ∧ Ordered l' q := by
  induction h with
  | refl => exact ⟨l, .refl l, hp⟩
  | register _ ih =>
    obtain ⟨l', hle, hq⟩ := ih
    exact ⟨_, hle.trans (l'.le_add _ none), hq.register⟩
  | raise _ hraise ih =>
    obtain ⟨l', hle, hq⟩ := ih
    exact ⟨l', hle, hq.raise hraise⟩
  | run _ hmem traced source ih =>
    obtain ⟨l', hle, hq⟩ := ih
    obtain ⟨l'', hle', hrun⟩ := hq.run hmem traced source
    exact ⟨l'', hle.trans hle', hrun⟩

theorem ordered_initial : Ordered .empty initial where
  store := ⟨rfl, fun _ => rfl⟩
  closures hclosure := (not_hasClosure_initial hclosure).elim
  roots := by simp [initial]

/-- Every process has a layout. -/
theorem Reached.ordered {p : Process} (h : p.Reached) : ∃ l, Ordered l p := by
  obtain ⟨l, -, hp⟩ := Later.ordered h ordered_initial
  exact ⟨l, hp⟩

/-- Opening a session with a prelude is one way to go on. -/
theorem Later.start (p : Process) (prelude : Prelude) (setting : String) (traced : Bool) :
    ∃ q, Later p q ∧ q.world = (p.start prelude setting traced).world ∧
      (p.start prelude setting traced).sessions ⊆ q.sessions ∧ p.answers ⊆ q.answers := by
  have hregister : Later p p.register := .register .refl
  have hsessions : (p.start prelude setting traced).sessions ⊆ p.register.sessions := by
    intro session hmem
    rcases List.mem_append.mp hmem with hmem | hmem
    · cases hanswer : (Session.start prelude setting traced p.world).answer with
      | error e => simp [hanswer, Except.toOption] at hmem
      | ok opened =>
        obtain rfl : session = opened := by simpa [hanswer, Except.toOption] using hmem
        rw [Session.eq_of_start hanswer]
        exact List.mem_cons_self
    · exact List.mem_cons_of_mem _ hmem
  rcases Session.start_cases prelude setting traced p.world with
    ⟨-, hworld⟩ | ⟨_, _, raised, hraise, ⟨-, -, hworld⟩ | ⟨source, -, -, hworld⟩⟩
  · exact ⟨p.register, hregister, hworld.symm, hsessions, List.Subset.refl _⟩
  · exact ⟨_, .raise hregister hraise, hworld.symm, hsessions, List.Subset.refl _⟩
  · refine ⟨_, .run (.raise hregister hraise) List.mem_cons_self traced source, hworld.symm,
      hsessions, ?_⟩
    exact List.subset_append_right _ _

/-- The limit of a process is never lowered. -/
theorem Later.limit_le {p q : Process} (h : Later p q) : p.world.limit ≤ q.world.limit := by
  induction h with
  | refl => exact Nat.le_refl _
  | register _ ih => exact ih
  | raise _ hraise ih => exact Nat.le_trans ih (Session.raiseLimit_ok hraise).2
  | run _ _ _ _ ih =>
    rw [Process.run, Session.run_world]
    exact ih

/-- No limit is lower than the first one. -/
theorem Reached.le_limit_start {p : Process} (h : p.Reached) (prelude : Prelude)
    (setting : String) (traced : Bool) :
    1000 ≤ (Session.start prelude setting traced p.world).world.limit := by
  obtain ⟨q, hlater, hworld, -⟩ := Later.start p prelude setting traced
  have hlimit := Nat.le_trans (Later.limit_le h) hlater.limit_le
  rw [hworld] at hlimit
  exact hlimit

/-- A process with a new session has a layout. -/
theorem Reached.ordered_start {p : Process} (h : p.Reached) (prelude : Prelude) (setting : String)
    (traced : Bool) : ∃ l, Ordered l (p.start prelude setting traced) := by
  obtain ⟨l, hl⟩ := h.ordered
  obtain ⟨q, hlater, hworld, hsessions, hanswers⟩ := Later.start p prelude setting traced
  obtain ⟨l', -, hq⟩ := hlater.ordered hl
  refine ⟨l', hworld ▸ hq.store, fun hclosure => ?_, fun hmem => hq.roots (hsessions hmem)⟩
  exact hq.closures (hclosure.mono (congrArg World.store hworld.symm) hanswers)

end Process

end MiniScheme
