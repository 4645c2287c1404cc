import MiniScheme.Proofs.Eval.Correspondence
import MiniScheme.Proofs.Session.Capture
import MiniScheme.Proofs.Session.Shadowing

/-!
# The course of a process

Sessions are registered and expressions are evaluated in their roots, one after the other. Programs
are nothing else, so what is true over every such course is true between the expressions of a
program as well as from one run to the next.

A binding stays as it is over any course in which no `define` and no `set!` is about to change it.

## Main definitions

* `Moment.rebinds`: a binding is about to be changed.
* `EntersBefore`: a computation comes to an evaluation before it comes to certain moments.
* `Process.evaluate`, `Process.Course`: one expression, and any number of them.
* `Process.ComesTo`: an evaluation that a process comes to later.
* `Layout.keeping`: evaluation that leaves a binding as it is.

## Main statements

* `Process.Course.ordered`: the layout of a process grows.
* `Process.Course.get?_table`: a binding stays as it is.
* `Process.Later.course`, `Process.RunsAvoiding.course`: runs of programs are courses.
* `Process.Later.comesTo`: so is what programs come to.
-/

namespace MiniScheme

def Value.target? (operands : Value) : Option String :=
  match operands.properItems with
  | .ok [.symbol x, _] => some x
  | _ => none

/-- What a name is bound to in the table at a place is about to be changed: by a `define` in an
environment that ends there, or by a `set!` in one in which the name is found there. -/
def Moment.rebinds (place : TableId) (x : String) : Moment → Bool
  | entry env (.form .define _) operands _ => env.root = place ∧ operands.target? = some x
  | entry env (.form .assign _) operands store =>
    store.find? env x = some place ∧ operands.target? = some x
  | _ => false

theorem Moment.rebinds_cases {place : TableId} {x : String} {env : Env} {v operands : Value}
    {store : Store} (h : (entry env v operands store).rebinds place x = true) :
    (∃ k, v = .form .define k) ∧ env.root = place ∨
      (∃ k, v = .form .assign k) ∧ store.find? env x = some place := by
  unfold rebinds at h
  split at h
  · next heq =>
    cases heq
    exact .inl ⟨⟨_, rfl⟩, (of_decide_eq_true h).1⟩
  · next heq =>
    cases heq
    exact .inr ⟨⟨_, rfl⟩, (of_decide_eq_true h).1⟩
  · cases h

/-- A binding is changed in an environment with its table. -/
theorem Moment.mem_tables_of_rebinds {place : TableId} {x : String} {env : Env}
    {v operands : Value} {store : Store} (h : (entry env v operands store).rebinds place x = true) :
    place ∈ env.tables := by
  rcases rebinds_cases h with ⟨-, rfl⟩ | ⟨-, hfind⟩
  · exact List.mem_append_right _ List.mem_cons_self
  · exact (Store.find?_eq_some hfind).1

/-- A computation that is watched comes to an evaluation in the given state, and it comes to no
moment that a test picks before it is in this state. -/
def EntersBefore {α : Type} (c : Alarm → EvalM α) (stop : Moment → Bool) (s : EvalState) (env : Env)
    (v operands : Value) (s₁ : EvalState) : Prop :=
  ∃ picks : Moment → Bool, Meets c picks s s₁ ∧ Meets c (fun m => picks m || stop m) s s₁ ∧
    ∀ m, picks m = true → ∃ store, m = .entry env v operands store

theorem EntersBefore.enters {α : Type} {c : Alarm → EvalM α} {stop : Moment → Bool}
    {s s₁ : EvalState} {env : Env} {v operands : Value}
    (h : EntersBefore c stop s env v operands s₁) : Enters c s env v operands s₁ := by
  obtain ⟨picks, hmeets, -, hpicks⟩ := h
  exact ⟨picks, hmeets, hpicks⟩

/-! ## Bindings that stay -/

namespace Layout

theorem Describes.binds {l : Layout} {s : Store} (h : l.Describes s) {id : TableId} {x : String}
    (hid : (s.table id).contains x = true) : l.Binds id x := by
  have hx : x ∈ (s.table id).names := Table.contains_iff_mem_names.mp hid
  exact ⟨h.size ▸ Store.lt_size_of_mem_names hx, h.names id ▸ hx⟩

theorem exists_before_of_find? {ids : List TableId} {p : TableId → Bool} {place : TableId}
    (hmem : place ∈ ids) (hp : p place = true) (hne : ids.find? p ≠ some place) :
    ∃ id ∈ ids.takeWhile (· != place), p id = true := by
  induction ids with
  | nil => cases hmem
  | cons id ids ih =>
    by_cases hid : id = place
    · subst hid
      simp [hp] at hne
    · rw [List.takeWhile_cons_of_pos (by simpa using hid)]
      by_cases hfirst : p id = true
      · exact ⟨id, List.mem_cons_self, hfirst⟩
      · rw [List.find?_cons_of_neg hfirst] at hne
        obtain ⟨id', hid', hp'⟩ := ih (List.mem_of_ne_of_mem (Ne.symm hid) hmem) hne
        exact ⟨id', List.mem_cons_of_mem _ hid', hp'⟩

theorem find?_ne_of_before {ids : List TableId} {p : TableId → Bool} {place id : TableId}
    (hmem : id ∈ ids.takeWhile (· != place)) (hp : p id = true) : ids.find? p ≠ some place := by
  rw [← List.takeWhile_append_dropWhile (p := (· != place)) (l := ids), List.find?_append]
  cases hfind : (ids.takeWhile (· != place)).find? p with
  | none => exact absurd hp (List.find?_eq_none.mp hfind id hmem)
  | some found =>
    have hfound := List.all_eq_true.mp List.all_takeWhile found (List.mem_of_find?_eq_some hfind)
    simpa using hfound

/-- Evaluation that leaves a binding in the table at a place as it is: names are defined elsewhere,
and assigned to only where they are bound in front of that table. -/
def keeping (root place : TableId) (x : String) (v : Value) : Discipline where
  __ := discipline root
  store l s := l.Describes s ∧ place < l.size ∧ (s.table place).get? x = some v
  frame l id := l.Free id ∧ id ≠ place
  definable y := root = place → y ≠ x
  assignable l e y := y = x → place ∈ e.tables →
    ∃ id ∈ e.tables.takeWhile (· != place), l.Binds id x
  frame_mono h hid := ⟨h.free hid.1, hid.2⟩
  assignable_mono h hx hy hmem := by
    obtain ⟨id, hid, hbinds⟩ := hx hy hmem
    exact ⟨id, hid, h.binds hbinds⟩
  opens {l s} h := by
    obtain ⟨l', hle, hstore, hframe⟩ := (discipline root).opens h.1
    have hplace : place < s.tables.size := h.1.size ▸ h.2.1
    refine ⟨l', hle, ⟨hstore, Nat.lt_of_lt_of_le h.2.1 hle.size, ?_⟩, hframe, ?_⟩
    · rw [Store.table_allocate_of_lt hplace]
      exact h.2.2
    · exact Nat.ne_of_gt hplace
  fills {l s id} y u h hid := by
    obtain ⟨l', hle, hstore⟩ := (discipline root).fills y u h.1 hid.1
    refine ⟨l', hle, hstore, Nat.lt_of_lt_of_le h.2.1 hle.size, ?_⟩
    rw [Store.table_define_of_ne hid.2.symm]
    exact h.2.2
  encloses he hid := (discipline root).encloses he hid.1
  assigns {l s e id y} u hx h he hfind := by
    obtain ⟨l', hle, hstore⟩ := (discipline root).assigns u trivial h.1 he hfind
    refine ⟨l', hle, hstore, Nat.lt_of_lt_of_le h.2.1 hle.size, ?_⟩
    by_cases hy : y = x
    · have hne : place ≠ id := by
        rintro rfl
        obtain ⟨front, hfront, hbinds⟩ := hx hy (Store.find?_eq_some hfind).1
        rw [Store.find?_eq] at hfind
        refine find?_ne_of_before hfront ?_ hfind
        rw [hy]
        exact Table.contains_iff_mem_names.mpr (h.1.names front ▸ hbinds.2)
      rw [Store.table_define_of_ne hne]
      exact h.2.2
    · rw [Store.get?_table_define_of_ne (Ne.symm hy)]
      exact h.2.2
  defines {l s e y} u hy h he := by
    obtain ⟨l', hle, hstore⟩ := (discipline root).defines (x := y) u trivial h.1 he
    refine ⟨l', hle, hstore, Nat.lt_of_lt_of_le h.2.1 hle.size, ?_⟩
    by_cases hroot : root = place
    · rw [Store.get?_table_define_of_ne (Ne.symm (hy hroot))]
      exact h.2.2
    · rw [he.1, Store.table_define_of_ne (Ne.symm hroot)]
      exact h.2.2
  captures {l s e formals body es} h he hformals hbody := by
    obtain ⟨l', hle, hstore, hclosure⟩ := (discipline root).captures h.1 he hformals hbody
    have hplace : place < s.tables.size := h.1.size ▸ h.2.1
    refine ⟨l', hle, ⟨hstore, Nat.lt_of_lt_of_le h.2.1 hle.size, ?_⟩, hclosure⟩
    rw [Store.table_allocate_of_lt hplace]
    exact h.2.2

section Keeping

variable {l : Layout} {root place : TableId} {x : String} {v : Value} {s : Store}

theorem keeping_keeps (h : (discipline root).Keeps l s) (hget : (s.table place).get? x = some v) :
    (keeping root place x v).Keeps l s :=
  ⟨⟨h.store, h.store.size ▸ Store.lt_size_of_get? hget, hget⟩, h.values⟩

variable {a : Alarm} (ha : ∀ m, m.rebinds place x = true → a.picks m = true)
include ha

/-- An alarm that rings before a binding is changed lets no definition of it pass. -/
theorem keeping_defines : (keeping root place x v).Defines a := by
  rintro l env installation operands e y store henv hpass hitems rfl rfl
  have hrings : (Moment.entry env (.form .define installation) operands store).rebinds env.root y =
      true := by simp [Moment.rebinds, Value.target?, hitems]
  rw [ha _ (henv.1 ▸ hrings)] at hpass
  cases hpass

/-- It lets an assignment pass only if another binding stands in front. -/
theorem keeping_assigns : (keeping root place x v).Assigns a := by
  rintro l env installation operands e y store hstore henv hpass hitems rfl hmem
  have hne : store.find? env y ≠ some place := by
    intro hfind
    have hrings : (Moment.entry env (.form .assign installation) operands store).rebinds place y =
        true := by simp [Moment.rebinds, Value.target?, hitems, hfind]
    rw [ha _ hrings] at hpass
    cases hpass
  rw [Store.find?_eq] at hne
  have hplace : (store.table place).contains y = true := by simp [Table.contains, hstore.2.2]
  obtain ⟨id, hid, hcontains⟩ := exists_before_of_find? hmem hplace hne
  exact ⟨id, hid, hstore.1.binds hcontains⟩

theorem keeping_matched (traced : Bool) (depth : Nat) :
    (keeping root place x v).Matched a a (.watched a traced depth) (.watched a traced depth) :=
  Discipline.matched (fun _ hm => hm) (keeping_defines ha) (keeping_assigns ha)
    (fun h => h.calls fun henv _ => henv) traced depth

end Keeping

end Layout

/-! ## Expressions of a session -/

def Session.expression (session : Session) (traced : Bool) (e : Value) (world : World)
    (alarm : Alarm) : EvalM Value :=
  watch alarm traced world.limit session.env e .nil

/-- An expression without closures keeps the disciplines in which it may start. -/
theorem Discipline.Matched.expression {D : Discipline} {a b : Alarm} {w : D.World}
    {session : Session} {traced : Bool} {world : MiniScheme.World} {e : Value}
    (h : D.Matched a b (.watched a traced world.limit) (.watched b traced world.limit))
    (henv : D.env w session.env) (he : e.closures = []) :
    Tracks a b w (session.expression traced e world a) (session.expression traced e world b)
      D.Allows :=
  h.run henv (allows_of_closures_eq_nil he) (allows_of_closures_eq_nil rfl)

theorem Session.expression_tracks {session : Session} {traced : Bool} {e : Value} {world : World}
    {a b : Alarm} (hweaker : ∀ m, b.picks m = true → a.picks m = true) :
    Discipline.Tracks a b () (session.expression traced e world a)
      (session.expression traced e world b) Discipline.lax.Allows :=
  (Discipline.lax_matched hweaker traced world.limit).run trivial (Discipline.lax_allows _)
    (Discipline.lax_allows _)

namespace Process

def evaluate (p : Process) (session : Session) (traced : Bool) (e : Value) (events : List Event) :
    Process :=
  let outcome := eval traced p.world.limit session.env e .nil ⟨p.world.store, events⟩
  ⟨{ p.world with store := (finalState outcome).store }, p.sessions,
    (finalAnswer outcome).toOption.toList ++ p.answers⟩

/-- What a process may come to if none of the moments comes up that a test picks: sessions are
registered, the limit is raised, and expressions are evaluated, in any order. -/
inductive Course (stop : Moment → Bool) (p : Process) : Process → Prop where
  | refl : Course stop p p
  | register {q : Process} (h : Course stop p q) : Course stop p q.register
  | raise {q : Process} {limit : Option Nat} {events : List Event} {world : World}
      (h : Course stop p q) (hraise : Session.raiseLimit limit q.world = (events, .ok world)) :
      Course stop p { q with world }
  | evaluate {q : Process} {session : Session} {traced : Bool} {e : Value} {events : List Event}
      (h : Course stop p q) (hmem : session ∈ q.sessions) (he : e.closures = [])
      (havoids : Avoids (session.expression traced e q.world) stop ⟨q.world.store, events⟩) :
      Course stop p (q.evaluate session traced e events)

/-- An evaluation that a process comes to before any moment that a test picks. -/
inductive ComesTo (stop : Moment → Bool) (p : Process) (env : Env) (v operands : Value)
    (s : EvalState) : Prop where
  | intro {q : Process} {session : Session} {traced : Bool} {e : Value} {events : List Event}
      (hcourse : Course stop p q) (hmem : session ∈ q.sessions) (he : e.closures = [])
      (henters : EntersBefore (session.expression traced e q.world) stop ⟨q.world.store, events⟩
        env v operands s) : ComesTo stop p env v operands s

variable {p q : Process} {session : Session} {traced : Bool} {e : Value} {events : List Event}
  {stop : Moment → Bool}

/-- What an expression leaves behind is the same under an alarm that it does not set off. -/
theorem store_evaluate
    (havoids : Avoids (session.expression traced e p.world) stop ⟨p.world.store, events⟩)
    (f : Fault) : (p.evaluate session traced e events).world.store = (finalState
      (session.expression traced e p.world ⟨stop, f⟩ ⟨p.world.store, events⟩)).store := by
  rw [Discipline.eq_silent_of_avoids Session.expression_tracks havoids f, Session.expression,
    watch_silent]
  rfl

/-! ## The layout in the course of a process -/

namespace Ordered

variable {l : Layout}

/-- The layout grows when an expression is evaluated, whatever comes of it. -/
theorem evaluate (h : Ordered l p) (hmem : session ∈ p.sessions) (he : e.closures = [])
    (traced : Bool) (events : List Event) :
    ∃ l', l.Le l' ∧ Ordered l' (p.evaluate session traced e events) := by
  have hmatched : (Layout.discipline session.root).Matched .silent .silent
      (.watched .silent traced p.world.limit) (.watched .silent traced p.world.limit) :=
    Layout.matched session.root (fun _ hm => hm) traced p.world.limit
  have hends := (hmatched.expression (h.env hmem) he ⟨p.world.store, events⟩
    (h.keeps session.root)).ends
  rw [Session.expression, watch_silent] at hends
  have hanswers : ∀ v ∈ (p.evaluate session traced e events).answers, v ∈ p.answers ∨
      ∃ s, eval traced p.world.limit session.env e .nil ⟨p.world.store, events⟩ = .ok v s := by
    intro v hv
    rcases List.mem_append.mp hv with hv | hv
    · cases hanswer : eval traced p.world.limit session.env e .nil ⟨p.world.store, events⟩ with
      | ok u s => exact .inr ⟨s, by simpa [hanswer, finalAnswer, Except.toOption, eq_comm] using hv⟩
      | error f s => simp [hanswer, finalAnswer, Except.toOption] at hv
    · exact .inl hv
  obtain ⟨l', hle, hstore, hclosures⟩ := keeps_of_ends (D := Layout.discipline session.root)
    (q := p.evaluate session traced e events) h.closures hends rfl hanswers
  exact ⟨l', hle, hstore, hclosures, fun hs => hle.free (h.roots hs)⟩

/-- An expression that does not come to a change of a binding leaves it as it is. -/
theorem get?_evaluate (h : Ordered l p) (hmem : session ∈ p.sessions) (he : e.closures = [])
    {place : TableId} {x : String} {v : Value}
    (hget : (p.world.store.table place).get? x = some v)
    (havoids : Avoids (session.expression traced e p.world) (Moment.rebinds place x)
      ⟨p.world.store, events⟩) :
    ((p.evaluate session traced e events).world.store.table place).get? x = some v := by
  have hkeeps := Layout.keeping_keeps (h.keeps session.root) hget
  let a : Alarm := ⟨Moment.rebinds place x, .tooDeep⟩
  have hmatched : (Layout.keeping session.root place x v).Matched a a
      (.watched a traced p.world.limit) (.watched a traced p.world.limit) :=
    Layout.keeping_matched (fun _ hm => hm) traced p.world.limit
  obtain ⟨_, -, hfinal, -⟩ :=
    (hmatched.expression (h.env hmem) he ⟨p.world.store, events⟩ hkeeps).ends.final
  rw [store_evaluate havoids .tooDeep]
  exact hfinal.store.2.2

end Ordered

namespace Course

theorem trans {r : Process} (h : Course stop p q) (g : Course stop q r) : Course stop p r := by
  induction g with
  | refl => exact h
  | register _ ih => exact .register ih
  | raise _ hraise ih => exact .raise ih hraise
  | evaluate _ hmem he havoids ih => exact .evaluate ih hmem he havoids

/-- The layout of a process grows. -/
theorem ordered (h : Course stop p q) {l : Layout} (hp : Ordered l p) :
    ∃ l', l.Le l' ∧ Ordered l' q := by
  induction h with
  | refl => exact ⟨l, .refl l, hp⟩
  | register _ ih =>
    obtain ⟨l', hle, hq⟩ := ih
    exact ⟨_, hle.trans (l'.le_add _ none), hq.register⟩
  | raise _ hraise ih =>
    obtain ⟨l', hle, hq⟩ := ih
    exact ⟨l', hle, hq.raise hraise⟩
  | evaluate _ hmem he _ ih =>
    obtain ⟨l', hle, hq⟩ := ih
    obtain ⟨l'', hle', hnext⟩ := hq.evaluate hmem he _ _
    exact ⟨l'', hle.trans hle', hnext⟩

/-- A binding stays as it is as long as nothing is about to change it. -/
theorem get?_table {place : TableId} {x : String} {v : Value}
    (h : Course (Moment.rebinds place x) p q) {l : Layout} (hp : Ordered l p)
    (hget : (p.world.store.table place).get? x = some v) :
    (q.world.store.table place).get? x = some v := by
  induction h with
  | refl => exact hget
  | @register q _ ih =>
    rw [Process.register, Session.table_register,
      Store.table_allocate_of_lt (Store.lt_size_of_get? ih)]
    exact ih
  | raise _ hraise ih =>
    rw [(Session.raiseLimit_ok hraise).1]
    exact ih
  | evaluate hcourse hmem he havoids ih =>
    obtain ⟨l', -, hq⟩ := hcourse.ordered hp
    exact hq.get?_evaluate hmem he ih havoids

end Course

namespace ComesTo

variable {env : Env} {v operands : Value} {s : EvalState} {l : Layout}

theorem of_course (h : Course stop p q) (hq : ComesTo stop q env v operands s) :
    ComesTo stop p env v operands s := by
  obtain ⟨hcourse, hmem, he, henters⟩ := hq
  exact ⟨h.trans hcourse, hmem, he, henters⟩

/-- What the layout says of an evaluation that a process comes to. -/
theorem ordered (h : ComesTo stop p env v operands s) (hp : Ordered l p) :
    ∃ l₁, l.Le l₁ ∧ (Layout.discipline env.root).Keeps l₁ s.store ∧
      (Layout.discipline env.root).env l₁ env ∧ (Layout.discipline env.root).Allows l₁ v ∧
      (Layout.discipline env.root).Allows l₁ operands := by
  obtain ⟨hcourse, hmem, he, henters⟩ := h
  obtain ⟨l', hle, hq⟩ := hcourse.ordered hp
  obtain ⟨l₁, hle₁, hs, henv, hv, ho⟩ := Discipline.keeps_of_enters (fun a =>
    (Layout.matched _ (a := a) (by simp [Alarm.silent]) _ _).expression (hq.env hmem) he)
    (hq.keeps _) henters.enters
  rw [henv.1]
  exact ⟨l₁, hle.trans hle₁, hs, henv, hv, ho⟩

/-- Nothing there refers to a table that is not there. -/
theorem placed (h : ComesTo stop p env v operands s) (hp : Ordered l p) :
    ∃ n, (Snapshot.discipline []).Keeps n s.store ∧ (Snapshot.discipline []).env n env ∧
      (Snapshot.discipline []).Allows n v ∧ (Snapshot.discipline []).Allows n operands := by
  obtain ⟨hcourse, hmem, he, henters⟩ := h
  obtain ⟨l', -, hq⟩ := hcourse.ordered hp
  obtain ⟨n, -, hs⟩ := Discipline.keeps_of_enters (fun a =>
    (Snapshot.matched_nil (a := a) (by simp [Alarm.silent]) _ _).expression
      (hq.env_snapshots hmem (by simp)) he) (hq.keeps_snapshots (by simp) (by simp)) henters.enters
  exact ⟨n, hs⟩

/-- Up to there, a binding stays as it is as long as nothing is about to change it. -/
theorem get?_table {place : TableId} {x : String} {w : Value}
    (h : ComesTo (Moment.rebinds place x) p env v operands s) (hp : Ordered l p)
    (hget : (p.world.store.table place).get? x = some w) :
    (s.store.table place).get? x = some w := by
  obtain @⟨q, session, traced, e, events, hcourse, hmem, he, picks, -, hmeets, -⟩ := h
  obtain ⟨l', -, hq⟩ := hcourse.ordered hp
  let a : Alarm := ⟨fun m => picks m || m.rebinds place x, .tooDeep⟩
  have ha : ∀ m, m.rebinds place x = true → a.picks m = true := by simp +contextual [a]
  have hmatched : (Layout.keeping session.root place x w).Matched a a
      (.watched a traced q.world.limit) (.watched a traced q.world.limit) :=
    Layout.keeping_matched ha traced q.world.limit
  obtain ⟨_, -, hfinal, -⟩ := (hmatched.expression (hq.env hmem) he ⟨q.world.store, events⟩
    (Layout.keeping_keeps (hq.keeps session.root) (hcourse.get?_table hp hget))).ends.final
  rw [show session.expression traced e q.world a _ = _ from hmeets .tooDeep] at hfinal
  exact hfinal.store.2.2

end ComesTo

/-! ## Programs -/

/-- The evaluation of an expression of a program, which is reported before and after. -/
def announced (session : Session) (traced : Bool) (e : Value) (world : World) (alarm : Alarm) :
    EvalM Value := do
  (Level.watched alarm traced world.limit).report (.read e)
  let v ← session.expression traced e world alarm
  (Level.watched alarm traced world.limit).report (.evaluated v)
  return v

theorem evaluateForms_cons (world : World) (last : Value) (es : List Value) (alarm : Alarm) :
    Session.evaluateForms (.watched alarm traced world.limit) session.env last (e :: es) =
      announced session traced e world alarm >>=
        fun v => Session.evaluateForms (.watched alarm traced world.limit) session.env v es := by
  unfold announced
  simp only [bind_assoc, pure_bind]
  rfl

theorem report_tracks (world : World) (event : Event) {a b : Alarm}
    (hweaker : ∀ m, b.picks m = true → a.picks m = true) :
    Discipline.Tracks (D := Discipline.lax) a b ()
      ((Level.watched a traced world.limit).report event)
      ((Level.watched b traced world.limit).report event) fun _ _ => True :=
  (Discipline.lax_matched hweaker traced world.limit).report event

theorem announced_tracks (world : World) {a b : Alarm}
    (hweaker : ∀ m, b.picks m = true → a.picks m = true) :
    Discipline.Tracks a b () (announced session traced e world a)
      (announced session traced e world b) Discipline.lax.Allows :=
  (report_tracks world _ hweaker).bind fun _ _ _ _ =>
    (Session.expression_tracks hweaker).bind fun _ _ _ _ =>
      (report_tracks world _ hweaker).bind fun _ _ _ _ => .pure (Discipline.lax_allows _)

/-- A report takes a state to one with the same store. -/
theorem report_cases (level : Level) (event : Event) (s : EvalState) :
    (∃ f events, level.report event s = .error f ⟨s.store, events⟩) ∨
      ∃ events, level.report event s = .ok () ⟨s.store, events⟩ := by
  have hstore := (Still.report level event s rfl).1
  cases hreport : level.report event s with
  | ok u s' =>
    rw [hreport] at hstore
    exact .inr ⟨s'.events, by rw [← show s'.store = s.store from hstore]⟩
  | error f s' =>
    rw [hreport] at hstore
    exact .inl ⟨f, s'.events, by rw [← show s'.store = s.store from hstore]⟩

theorem store_announced (world : World) {s : EvalState}
    (hr : (Level.ofDepth traced world.limit).report (.read e) s = .ok () ⟨s.store, events⟩) :
    (finalState (announced session traced e world .silent s)).store =
      (finalState (eval traced world.limit session.env e .nil ⟨s.store, events⟩)).store := by
  have hsilent : session.expression traced e world .silent =
      eval traced world.limit session.env e .nil := by
    rw [Session.expression, watch_silent]
  simp only [announced, Bind.bind, EStateM.bind, Level.watched_silent, hsilent, hr]
  cases eval traced world.limit session.env e .nil ⟨s.store, events⟩ with
  | error f s₁ => rfl
  | ok v s₁ =>
    rcases report_cases (.ofDepth traced world.limit) (.evaluated v) s₁ with
      ⟨f, events₁, hr₁⟩ | ⟨events₁, hr₁⟩
    · simp only [hr₁, finalState]
    · simp only [hr₁, finalState, Pure.pure, EStateM.pure]

/-- A moment to which the evaluation of an expression of a program comes. -/
theorem meets_announced {picks : Moment → Bool} {s s₁ : EvalState}
    (h : Meets (announced session traced e p.world) picks s s₁) :
    ∃ events, Meets (session.expression traced e p.world) picks ⟨s.store, events⟩ s₁ := by
  have hnone (level : Level) (event : Event) (s : EvalState) :
      ¬ Meets (fun _ => level.report event) picks s s₁ := by
    intro hmeets
    obtain ⟨f, hf⟩ := Discipline.exists_fault_ne (level.report event s)
    exact hf s₁ (hmeets f)
  rcases Discipline.meets_bind (report_tracks p.world _) h with hreport | ⟨-, _, s', hs', h⟩
  · exact (hnone (.ofDepth traced p.world.limit) _ _ hreport).elim
  rcases report_cases (.ofDepth traced p.world.limit) (.read e) s with
    ⟨f, events, hr⟩ | ⟨events, hr⟩
  · cases hr.symm.trans hs'
  cases hr.symm.trans hs'
  rcases Discipline.meets_bind Session.expression_tracks h with hexpression | ⟨-, v, s', -, h⟩
  · exact ⟨events, hexpression⟩
  rcases Discipline.meets_bind (report_tracks p.world _) h with hreport | ⟨-, -, s', -, h⟩
  · exact (hnone (.ofDepth traced p.world.limit) _ _ hreport).elim
  · cases h .tooDeep

/-- The evaluation of an expression of a program is one of the expression. -/
theorem Course.of_announced (hmem : session ∈ p.sessions) (he : e.closures = [])
    (havoids : Avoids (announced session traced e p.world) stop ⟨p.world.store, events⟩) :
    ∃ q, Course stop p q ∧ q.sessions = p.sessions ∧ q.world = { p.world with
      store := (finalState (announced session traced e p.world .silent
        ⟨p.world.store, events⟩)).store } := by
  obtain ⟨-, hrest⟩ := Discipline.avoids_bind (report_tracks p.world _) havoids
  rcases report_cases (.ofDepth traced p.world.limit) (.read e) ⟨p.world.store, events⟩ with
    ⟨f, events₁, hr⟩ | ⟨events₁, hr⟩
  · refine ⟨p, .refl, rfl, ?_⟩
    simp only [announced, Bind.bind, EStateM.bind, Level.watched_silent, hr, finalState]
  obtain ⟨hexpression, -⟩ := Discipline.avoids_bind Session.expression_tracks (hrest () _ hr)
  refine ⟨_, .evaluate .refl hmem he hexpression, rfl, ?_⟩
  rw [store_announced p.world hr]
  rfl

variable {es : List Value} {last : Value}

/-- Expressions in turn are one course of a process. -/
theorem Course.of_forms (hmem : session ∈ p.sessions) (hes : ∀ e ∈ es, e.closures = [])
    (havoids : Avoids (fun a => Session.evaluateForms (.watched a traced p.world.limit) session.env
      last es) stop ⟨p.world.store, events⟩) :
    ∃ q, Course stop p q ∧ q.sessions = p.sessions ∧ q.world = { p.world with
      store := (finalState (Session.evaluateForms (.watched .silent traced p.world.limit)
        session.env last es ⟨p.world.store, events⟩)).store } := by
  induction es generalizing p last events with
  | nil => exact ⟨p, .refl, rfl, rfl⟩
  | cons e es ih =>
    obtain ⟨he, hes⟩ := List.forall_mem_cons.mp hes
    simp only [evaluateForms_cons p.world] at havoids ⊢
    obtain ⟨hfirst, hrest⟩ := Discipline.avoids_bind (announced_tracks p.world) havoids
    obtain ⟨q, hq, hsessions, hworld⟩ := Course.of_announced hmem he hfirst
    let P (r : EStateM.Result Fault EvalState Value) : Prop := ∃ q, Course stop p q ∧
      q.sessions = p.sessions ∧ q.world = { p.world with store := (finalState r).store }
    refine EvalM.bind_cases P (fun f s hs => ?_) (fun v s hs => ?_)
    · rw [hs] at hworld
      exact ⟨q, hq, hsessions, hworld⟩
    · rw [hs] at hworld
      have hnext := hrest v s hs
      obtain ⟨q', hq', hsessions', hworld'⟩ := ih (p := q) (hsessions ▸ hmem) hes
        (by rw [hworld]; exact hnext)
      refine ⟨q', hq.trans hq', hsessions'.trans hsessions, ?_⟩
      rw [hworld', hworld]
      rfl

/-- What expressions in turn come to, some process comes to with one of them. -/
theorem ComesTo.of_forms {env : Env} {v operands : Value} {s : EvalState}
    (hmem : session ∈ p.sessions) (hes : ∀ e ∈ es, e.closures = [])
    (h : Enters (fun a => Session.evaluateForms (.watched a traced p.world.limit) session.env
      last es) ⟨p.world.store, events⟩ env v operands s) :
    ComesTo (fun _ => false) p env v operands s := by
  obtain ⟨picks, hmeets, hpicks⟩ := h
  induction es generalizing p last events with
  | nil => cases hmeets .tooDeep
  | cons e es ih =>
    obtain ⟨he, hes⟩ := List.forall_mem_cons.mp hes
    simp only [evaluateForms_cons p.world] at hmeets
    rcases Discipline.meets_bind (announced_tracks p.world) hmeets with
      hfirst | ⟨-, u, s', hs', hrest⟩
    · obtain ⟨events₁, hfirst⟩ := meets_announced hfirst
      exact .intro .refl hmem he ⟨picks, hfirst, by simpa using hfirst, hpicks⟩
    · have havoids : Avoids (announced session traced e p.world) (fun _ => false)
          ⟨p.world.store, events⟩ := Discipline.avoids_never (announced_tracks p.world)
      obtain ⟨q, hq, hsessions, hworld⟩ := Course.of_announced hmem he havoids
      rw [hs'] at hworld
      exact .of_course hq (ih (p := q) (hsessions ▸ hmem) hes (by rw [hworld]; exact hrest))

/-- A program is one course of a process. -/
theorem Course.of_program (hmem : session ∈ p.sessions) {source : String}
    (havoids : Avoids (session.program traced source p.world) stop ⟨p.world.store, []⟩) :
    ∃ q, Course stop p q ∧ q.sessions = p.sessions ∧
      q.world = (p.run session traced source).world := by
  obtain ⟨q, hq, hsessions, hworld⟩ :=
    Course.of_forms hmem (fun e he => Session.closures_of_mem_forms he) havoids
  refine ⟨q, hq, hsessions, ?_⟩
  rw [hworld, Process.run, Session.run_world]
  rfl

/-- Runs of programs are a course of a process, but for the answers in between. -/
theorem RunsAvoiding.course (h : RunsAvoiding stop p q) :
    ∃ r, Course stop p r ∧ r.sessions = q.sessions ∧ r.world = q.world := by
  induction h with
  | refl => exact ⟨p, .refl, rfl, rfl⟩
  | @run q session traced source _ hmem havoids ih =>
    obtain ⟨r, hr, hsessions, hworld⟩ := ih
    rw [← hworld] at havoids
    obtain ⟨r', hr', hsessions', hworld'⟩ := Course.of_program (hsessions ▸ hmem) havoids
    refine ⟨r', hr.trans hr', hsessions'.trans hsessions, ?_⟩
    rw [hworld', Process.run, hworld]
    rfl

theorem Later.course (h : Later p q) :
    ∃ r, Course (fun _ => false) p r ∧ r.sessions = q.sessions ∧ r.world = q.world := by
  induction h with
  | refl => exact ⟨p, .refl, rfl, rfl⟩
  | register _ ih =>
    obtain ⟨r, hr, hsessions, hworld⟩ := ih
    refine ⟨r.register, .register hr, ?_, ?_⟩
    · rw [Process.register, Process.register, hworld, hsessions]
    · rw [Process.register, Process.register, hworld]
  | @raise q _ _ world _ hraise ih =>
    obtain ⟨r, hr, hsessions, hworld⟩ := ih
    exact ⟨{ r with world }, .raise hr (hworld ▸ hraise), hsessions, rfl⟩
  | @run q session _ hmem traced source ih =>
    obtain ⟨r, hr, hsessions, hworld⟩ := ih
    have havoids : Avoids (session.program traced source r.world) (fun _ => false)
        ⟨r.world.store, []⟩ := Discipline.avoids_never Session.program_tracks
    obtain ⟨r', hr', hsessions', hworld'⟩ := Course.of_program (hsessions ▸ hmem) havoids
    refine ⟨r', hr.trans hr', hsessions'.trans hsessions, ?_⟩
    rw [hworld', Process.run, hworld]
    rfl

/-- What a later program comes to, the process comes to with an expression. -/
theorem Later.comesTo (h : Later p q) (hmem : session ∈ q.sessions) {source : String} {env : Env}
    {v operands : Value} {s : EvalState}
    (henters : Enters (session.program traced source q.world) ⟨q.world.store, []⟩ env v operands
      s) : ComesTo (fun _ => false) p env v operands s := by
  obtain ⟨r, hr, hsessions, hworld⟩ := h.course
  rw [← hworld] at henters
  exact .of_course hr
    (.of_forms (hsessions ▸ hmem) (fun e he => Session.closures_of_mem_forms he) henters)

end Process

end MiniScheme
