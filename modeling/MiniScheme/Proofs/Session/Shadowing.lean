import MiniScheme.Proofs.Eval.Outcome
import MiniScheme.Proofs.Session.Process

/-!
# Globals behind a captured table

While the body of a closure is evaluated, the table that it captured stands in front of the root in
every environment that comes up, also in the bodies of other closures that it calls. A name that is
bound there is thus never found in the root: a `set!` of it changes another binding, and only a
`define` changes the global one.

## Main definitions

* `Moment.defines`: a `define` of a name is about to be executed.
* `Session.global?`: what a name means in the root of a session.
* `Layout.fenced`: evaluation in environments with some tables in front of the root.
* `Layout.holding`: evaluation that leaves a global as it is.

## Main statements

* `Process.global_of_call`: in the extent of a call, a captured global changes by `define` only.
-/

namespace MiniScheme

def Moment.defines (x : String) : Moment → Bool
  | entry _ (.form .define _) operands _ =>
    match operands.properItems with
    | .ok [.symbol y, _] => y = x
    | _ => false
  | _ => false

def Session.global? (session : Session) (x : String) (store : Store) : Option Value :=
  (store.table session.root).get? x

/-- From a state on, a computation leaves what a name means in the root of a session as it is, until
a `define` of the name is about to be executed. -/
def Session.LeavesGlobal {α : Type} (session : Session) (x : String) (c : Alarm → EvalM α)
    (s : EvalState) : Prop :=
  Until c (Moment.defines x) s fun store => session.global? x store = session.global? x s.store

namespace Layout

variable {l l' : Layout} {root : TableId}

/-! ## Fences -/

/-- Evaluation in environments in which some tables stand in front of the root, and the root stands
nowhere else. -/
def fenced (root : TableId) (fences : List TableId) : Discipline where
  World := Layout
  le := Le
  le_refl := .refl
  le_trans := .trans
  store l s := l.Describes s ∧ l.Free root
  closure := (discipline root).closure
  env l e := (discipline root).env l e ∧ root ∉ e.inner ∧ ∀ id ∈ fences, id ∈ e.inner
  frame l id := l.Free id ∧ id ≠ root
  closure_mono := (discipline root).closure_mono
  env_mono h he := ⟨(discipline root).env_mono h he.1, he.2⟩
  frame_mono h hid := ⟨h.free hid.1, hid.2⟩
  opens {l s} h := by
    obtain ⟨l', hle, hstore, hframe⟩ := (discipline root).opens h.1
    refine ⟨l', hle, ⟨hstore, hle.free h.2⟩, hframe, ?_⟩
    rw [← h.1.size]
    exact Nat.ne_of_gt h.2.1
  fills {l s id} x v h hid := by
    obtain ⟨l', hle, hstore⟩ := (discipline root).fills x v h.1 hid.1
    exact ⟨l', hle, hstore, hle.free h.2⟩
  encloses {l e id} he hid := by
    refine ⟨he.1, ?_, fun other hother => List.mem_cons_of_mem id (he.2.2 other hother)⟩
    simpa [Env.push, Ne.symm hid.2] using he.2.1
  assigns v hx h he hfind := by
    obtain ⟨l', hle, hstore⟩ := (discipline root).assigns v hx h.1 he.1 hfind
    exact ⟨l', hle, hstore, hle.free h.2⟩
  defines v hx h he := by
    obtain ⟨l', hle, hstore⟩ := (discipline root).defines v hx h.1 he.1
    exact ⟨l', hle, hstore, hle.free h.2⟩
  captures h he hformals hbody := by
    obtain ⟨l', hle, hstore, hclosure⟩ := (discipline root).captures h.1 he.1 hformals hbody
    exact ⟨l', hle, ⟨hstore, hle.free h.2⟩, hclosure⟩

/-- What a closure has captured is another table than the root. -/
theorem ne_of_snapshot {captured : TableId} {closure : Value × Value} (hroot : l.Free root)
    (h : l.snapshot captured = some closure) : captured ≠ root := by
  rintro rfl
  rw [hroot.2] at h
  cases h

theorem fenced_push {fences : List TableId} {e : Env} {formals body : Value} {captured : TableId}
    (he : (fenced root fences).env l e)
    (hclosure : (fenced root fences).closure l formals body captured) :
    (fenced root (captured :: fences)).env l (e.push captured) := by
  have hne : captured ≠ root := ne_of_snapshot he.1.2 hclosure
  refine ⟨he.1, ?_, List.forall_mem_cons.mpr ⟨List.mem_cons_self, fun id hid => ?_⟩⟩
  · simpa [Env.push, Ne.symm hne] using he.2.1
  · exact List.mem_cons_of_mem captured (he.2.2 id hid)

theorem fenced_env_push {fences : List TableId} {e : Env} {formals body : Value}
    {captured : TableId} (he : (fenced root fences).env l e)
    (hclosure : (fenced root fences).closure l formals body captured) :
    (fenced root fences).env l (e.push captured) := by
  obtain ⟨hroot, hinner, hfences⟩ := fenced_push he hclosure
  exact ⟨hroot, hinner, fun id hid => hfences id (List.mem_cons_of_mem captured hid)⟩

theorem fenced_matched (root : TableId) (fences : List TableId) {a b : Alarm}
    (hweaker : ∀ m, b.picks m = true → a.picks m = true) (traced : Bool) (depth : Nat) :
    (fenced root fences).Matched a b (.watched a traced depth) (.watched b traced depth) :=
  Discipline.matched hweaker (fun _ _ _ => trivial) (fun _ _ _ _ => trivial)
    (fun h => h.calls fenced_env_push) traced depth

/-! ## Globals -/

def Binds (l : Layout) (id : TableId) (x : String) : Prop := id < l.size ∧ x ∈ l.names id

theorem Le.binds (h : l.Le l') {id : TableId} {x : String} (hid : l.Binds id x) :
    l'.Binds id x :=
  ⟨Nat.lt_of_lt_of_le hid.1 h.size, (h.names hid.1).subset hid.2⟩

/-- Evaluation in environments in which a table that binds a name stands in front of the root: what
the root binds the name to stays as it is, as long as the name is not defined. -/
def holding (root front : TableId) (x : String) (value : Option Value) : Discipline where
  __ := fenced root [front]
  store l s := (fenced root [front]).store l s ∧ l.Binds front x ∧ (s.table root).get? x = value
  definable y := y ≠ x
  opens {l s} h := by
    obtain ⟨l', hle, hstore, hframe⟩ := (fenced root [front]).opens h.1
    have hroot : root < s.tables.size := h.1.1.size ▸ h.1.2.1
    refine ⟨l', hle, ⟨hstore, hle.binds h.2.1, ?_⟩, hframe⟩
    rw [Store.table_allocate_of_lt hroot]
    exact h.2.2
  fills {l s id} y v h hid := by
    obtain ⟨l', hle, hstore⟩ := (fenced root [front]).fills y v h.1 hid
    refine ⟨l', hle, hstore, hle.binds h.2.1, ?_⟩
    rw [Store.table_define_of_ne hid.2.symm]
    exact h.2.2
  assigns {l s e id y} v hx h he hfind := by
    obtain ⟨l', hle, hstore⟩ := (fenced root [front]).assigns v hx h.1 he hfind
    refine ⟨l', hle, hstore, hle.binds h.2.1, ?_⟩
    by_cases hy : y = x
    · -- the name is found in front of the root
      subst hy
      have hfront : front ∈ e.inner := he.2.2 front List.mem_cons_self
      have hbound : y ∈ (s.table front).names := h.1.1.names front ▸ h.2.1.2
      obtain ⟨found, hfound, heq⟩ := Store.find?_of_mem_inner hfront hbound
      obtain rfl := Option.some.inj (hfind.symm.trans heq)
      have hne : root ≠ id := fun heq => he.2.1 (heq ▸ hfound)
      rw [Store.table_define_of_ne hne]
      exact h.2.2
    · rw [Store.get?_table_define_of_ne (Ne.symm hy)]
      exact h.2.2
  defines {l s e y} v hy h he := by
    obtain ⟨l', hle, hstore⟩ := (fenced root [front]).defines (x := y) v trivial h.1 he
    refine ⟨l', hle, hstore, hle.binds h.2.1, ?_⟩
    rw [Store.get?_table_define_of_ne (Ne.symm hy)]
    exact h.2.2
  captures {l s e formals body es} h he hformals hbody := by
    obtain ⟨l', hle, hstore, hclosure⟩ := (fenced root [front]).captures h.1 he hformals hbody
    have hroot : root < s.tables.size := h.1.1.size ▸ h.1.2.1
    refine ⟨l', hle, ⟨hstore, hle.binds h.2.1, ?_⟩, hclosure⟩
    rw [Store.table_allocate_of_lt hroot]
    exact h.2.2

theorem holding_keeps {front : TableId} {x : String} {s : Store}
    (h : (fenced root [front]).Keeps l s) (hx : l.Binds front x) :
    (holding root front x ((s.table root).get? x)).Keeps l s :=
  ⟨⟨h.store, hx, rfl⟩, h.values⟩

/-- An alarm that rings at every `define` of a name lets only those of other names pass. -/
theorem holding_defines {front : TableId} {x : String} {value : Option Value} {a : Alarm}
    (ha : ∀ m, m.defines x = true → a.picks m = true) :
    (holding root front x value).Defines a := by
  intro l env installation operands e y store _ hpass hitems hy
  have hrings : (Moment.entry env (.form .define installation) operands store).defines x = true :=
    by simp [Moment.defines, hitems, hy]
  rw [ha _ hrings] at hpass
  cases hpass

theorem holding_matched (root front : TableId) (x : String) (value : Option Value) {a : Alarm}
    (ha : ∀ m, m.defines x = true → a.picks m = true) (traced : Bool) (depth : Nat) :
    (holding root front x value).Matched a a (.watched a traced depth)
      (.watched a traced depth) :=
  Discipline.matched (fun _ hm => hm) (holding_defines ha) (fun _ _ _ _ => trivial)
    (fun h => h.calls fenced_env_push) traced depth

end Layout

/-! ## Runs -/

namespace Process

variable {l : Layout} {p : Process} {session : Session}

theorem Ordered.keeps_fenced (h : Ordered l p) (hmem : session ∈ p.sessions) :
    (Layout.fenced session.root []).Keeps l p.world.store :=
  ⟨⟨h.store, h.roots hmem⟩, (h.keeps session.root).values⟩

theorem Ordered.env_fenced (h : Ordered l p) (hmem : session ∈ p.sessions) :
    (Layout.fenced session.root []).env l session.env :=
  ⟨h.env hmem, by simp [Session.env], by simp⟩

/-- A closure that is made while the root binds a name captures it. -/
theorem captures_of_lambda {x : String} {env : Env} {installation : Nat} {operands v : Value}
    {traced : Bool} {depth : Nat} {s s₁ : EvalState} (hroot : env.root = session.root)
    (hglobal : (session.global? x s.store).isSome = true)
    (heval : eval traced depth env (.form .lambda installation) operands s = .ok v s₁) :
    ∃ formals body captured, v = .closure formals body captured ∧
      x ∈ (s₁.store.table captured).names := by
  obtain ⟨formals, body, rfl, rfl⟩ := eval_lambda_ok heval
  refine ⟨formals, body, _, rfl, ?_⟩
  have hnames : x ∈ (s.store.table env.root).names := by
    rw [hroot]
    exact Table.contains_iff_mem_names.mp hglobal
  rw [Store.table_allocate, if_pos rfl]
  exact Store.mem_names_collapse hnames

/-- The body of a closure is evaluated with the captured table in front of the root. -/
theorem fenced_of_bind {caller : Env} {formals body operands : Value} {captured : TableId}
    {traced : Bool} {depth : Nat} {s s₁ : EvalState}
    (hs : (Layout.fenced session.root []).Keeps l s.store)
    (henv : (Layout.fenced session.root []).env l caller)
    (hclosure : (Layout.fenced session.root []).Allows l (.closure formals body captured))
    (ho : (Layout.fenced session.root []).Allows l operands)
    (hbind : Closure.bind (.ofDepth traced depth) caller s.store.tables.size formals operands
      ⟨(s.store.allocate .empty).2, s.events⟩ = .ok () s₁) :
    ∃ l₁, l.Le l₁ ∧ (Layout.fenced session.root [captured]).Keeps l₁ s₁.store ∧
      (Layout.fenced session.root [captured]).env l₁
        ((caller.push captured).push s.store.tables.size) := by
  obtain ⟨l₁, hle₁, hopened, hframe⟩ := hs.opens
  have hmatched : (Layout.fenced session.root []).Matched .silent .silent (.ofDepth traced depth)
      (.ofDepth traced depth) := by
    rw [← Level.watched_silent]
    exact Layout.fenced_matched session.root [] (fun _ hm => hm) traced depth
  have htracks := hmatched.bind ((Layout.fenced session.root []).env_mono hle₁ henv) hframe formals
    (ho.mono hle₁)
  obtain ⟨l₂, hle₂, hbound, -⟩ := (htracks ⟨_, s.events⟩ hopened).ends.final
  rw [hbind] at hbound
  have hle : l.Le l₂ := hle₁.trans hle₂
  refine ⟨l₂, hle, ⟨hbound.store, hbound.values⟩, ?_⟩
  have hpush := Layout.fenced_push henv (Discipline.allows_closure.mp hclosure).1
  exact (Layout.fenced session.root [captured]).encloses
    ((Layout.fenced session.root [captured]).env_mono hle hpush)
    ((Layout.fenced session.root []).frame_mono hle₂ hframe)

/-! ## Behind a table that binds the name -/

section Fenced

variable {front : TableId} {x : String} {env : Env} {traced : Bool} {depth : Nat} {s : EvalState}
  (hs : (Layout.fenced session.root [front]).Keeps l s.store) (hx : l.Binds front x)
  (henv : (Layout.fenced session.root [front]).env l env)
include hs hx

theorem leavesGlobal_of_tracks {c : Alarm → EvalM Value}
    (hlax : ∀ {a b : Alarm}, (∀ m, b.picks m = true → a.picks m = true) →
      Discipline.Tracks a b () (c a) (c b) Discipline.lax.Allows)
    (h : ∀ (value : Option Value) (a : Alarm), (∀ m, m.defines x = true → a.picks m = true) →
      Discipline.Tracks a a l (c a) (c a) (Layout.holding session.root front x value).Allows) :
    session.LeavesGlobal x c s :=
  Discipline.until_of_tracks hlax (h _) (Layout.holding_keeps hs hx) fun _ hstore => hstore.2.2

include henv

/-- An evaluation leaves the global alone. -/
theorem leavesGlobal_watch {v operands : Value}
    (hv : (Layout.fenced session.root [front]).Allows l v)
    (ho : (Layout.fenced session.root [front]).Allows l operands) :
    session.LeavesGlobal x (watch · traced depth env v operands) s := by
  refine leavesGlobal_of_tracks hs hx (fun hweaker => ?_) (fun value a ha => ?_)
  · exact (Discipline.lax_matched hweaker traced depth).run trivial (Discipline.lax_allows _)
      (Discipline.lax_allows _)
  · exact (Layout.holding_matched session.root front x value ha traced depth).run henv hv ho

/-- So does the evaluation of a body. -/
theorem leavesGlobal_evaluateBody {es : List Value}
    (hes : ∀ e ∈ es, (Layout.fenced session.root [front]).Allows l e) :
    session.LeavesGlobal x (fun alarm => (Level.watched alarm traced depth).evaluateBody env es)
      s := by
  refine leavesGlobal_of_tracks hs hx (fun hweaker => ?_) (fun value a ha => ?_)
  · exact (Discipline.lax_matched hweaker traced depth).evaluateBody trivial
      fun _ _ => Discipline.lax_allows _
  · exact (Layout.holding_matched session.root front x value ha traced depth).evaluateBody henv hes

/-- A `set!` of the name changes a binding outside the root, if its value can be computed. -/
theorem eval_assign_of_fenced {operands e v : Value} {installation : Nat} {s₁ : EvalState}
    (ho : (Layout.fenced session.root [front]).Allows l operands)
    (hitems : operands.properItems = .ok [.symbol x, e])
    (he : eval traced depth env e .nil s = .ok v s₁) :
    ∃ id, id ≠ session.root ∧ eval traced (depth + 1) env (.form .assign installation) operands s =
      .ok v { s₁ with store := s₁.store.define id x v } := by
  have hallows : (Layout.fenced session.root [front]).Allows l e :=
    Discipline.allows_of_mem_properItems ho hitems e (by simp)
  have htracks := (Layout.fenced_matched session.root [front] (a := .silent) (b := .silent)
    (fun _ hm => hm) traced depth).evaluate henv hallows
  obtain ⟨l₁, hle, hs₁, -⟩ := (htracks s hs).ends.final
  rw [Level.watched_silent, show (Level.ofDepth traced depth).evaluate env e s = .ok v s₁ from he]
    at hs₁
  have hfront : front ∈ env.inner := henv.2.2 front List.mem_cons_self
  have hbound : x ∈ (s₁.store.table front).names := hs₁.store.1.names front ▸ (hle.binds hx).2
  obtain ⟨id, hid, hfind⟩ := Store.find?_of_mem_inner hfront hbound
  exact ⟨id, fun heq => henv.2.1 (heq ▸ hid), Form.runAssign_ok hitems he hfind⟩

end Fenced

/-! ## Calls -/

/-- **Captured globals.** In every run in a session, whatever comes of it, a closure that is made
while the root binds a name captures a table that binds it. And in every call of a closure whose
captured table binds a name, once the operands are bound and the body is evaluated:

* what the root binds the name to is the same up to the first `define` of the name;
* this is also so in every evaluation that the body comes to, from its start on;
* a `set!` of the name that the body comes to changes a binding outside the root. -/
theorem global_of_call (hp : p.Reached) (hmem : session ∈ p.sessions) (traced : Bool)
    (source x : String) :
    let program := session.program traced source p.world
    let before : EvalState := ⟨p.world.store, []⟩
    (∀ env installation operands s,
      Enters program before env (.form .lambda installation) operands s →
      (session.global? x s.store).isSome = true → ∀ depth v s₁,
      eval traced depth env (.form .lambda installation) operands s = .ok v s₁ →
      ∃ formals body captured, v = .closure formals body captured ∧
        x ∈ (s₁.store.table captured).names) ∧
    ∀ caller formals body captured operands s,
      Enters program before caller (.closure formals body captured) operands s →
      x ∈ (s.store.table captured).names → ∀ depth es s₁, body.properItems = .ok es →
      Closure.bind (.ofDepth traced depth) caller s.store.tables.size formals operands
        ⟨(s.store.allocate .empty).2, s.events⟩ = .ok () s₁ →
      let extent (alarm : Alarm) := (Level.watched alarm traced depth).evaluateBody
        ((caller.push captured).push s.store.tables.size) es
      eval traced (depth + 1) caller (.closure formals body captured) operands s =
          extent .silent s₁ ∧
        session.LeavesGlobal x extent s₁ ∧
        ∀ env v operands s₂, Enters extent s₁ env v operands s₂ → ∀ depth,
          session.LeavesGlobal x (watch · traced depth env v operands) s₂ ∧
          ∀ installation e u s₃, v = .form .assign installation →
            operands.properItems = .ok [.symbol x, e] → eval traced depth env e .nil s₂ = .ok u s₃ →
            ∃ id, id ≠ session.root ∧ eval traced (depth + 1) env v operands s₂ =
              .ok u { s₃ with store := s₃.store.define id x u } := by
  intro program before
  obtain ⟨l, hl⟩ := hp.ordered
  have hprogram (a : Alarm) := (Layout.fenced_matched session.root [] (a := a) (b := .silent)
    (by simp [Alarm.silent]) traced p.world.limit).program (hl.env_fenced hmem) source
  have hkeeps := hl.keeps_fenced hmem
  refine ⟨?_, ?_⟩
  · intro env installation operands s henters hglobal depth v s₁ heval
    obtain ⟨l₁, -, -, henv, -, -⟩ := Discipline.keeps_of_enters hprogram hkeeps henters
    exact captures_of_lambda henv.1.1 hglobal heval
  · intro caller formals body captured operands s henters hx depth es s₁ hbody hbind extent
    obtain ⟨l₁, -, hs, henv, hallows, ho⟩ := Discipline.keeps_of_enters hprogram hkeeps henters
    obtain ⟨hclosure, -, hforms⟩ := Discipline.allows_closure.mp hallows
    obtain ⟨l₂, hle, hs₁, hscope⟩ := fenced_of_bind hs henv hallows ho hbind
    have hes : ∀ e ∈ es, (Layout.fenced session.root [captured]).Allows l₂ e :=
      Discipline.allows_of_mem_properItems (hforms.mono hle) hbody
    have hbinds : l₂.Binds captured x :=
      hle.binds ⟨Layout.lt_of_snapshot hclosure, hs.store.1.names captured ▸ hx⟩
    refine ⟨?_, leavesGlobal_evaluateBody hs₁ hbinds hscope hes, ?_⟩
    · rw [show extent .silent = _ from congrArg (Level.evaluateBody · _ es)
        (Level.watched_silent traced depth)]
      exact Closure.run_of_bind hbind hbody
    · -- what the body comes to still has the captured table in front
      intro env v operands s₂ henters₂ depth₂
      have hextent (a : Alarm) := (Layout.fenced_matched session.root [captured] (a := a)
        (b := .silent) (by simp [Alarm.silent]) traced depth).evaluateBody hscope hes
      obtain ⟨l₃, hle₃, hs₂, henv₂, hv, ho₂⟩ := Discipline.keeps_of_enters hextent hs₁ henters₂
      refine ⟨leavesGlobal_watch hs₂ (hle₃.binds hbinds) henv₂ hv ho₂, ?_⟩
      rintro installation e u s₃ rfl hitems he
      exact eval_assign_of_fenced hs₂ (hle₃.binds hbinds) henv₂ ho₂ hitems he

/-- A closure that assigns to a global that it has captured changes its own binding only. -/
theorem global_of_call_of_assignment :
    let session : Session := ⟨0⟩
    let p := initial.register.run session false "(define x 1) (define f (lambda () (set! x 2)))"
    let after := (session.run false "(f)" p.world).world.store
    let body := Value.chain [.symbol "set!", .symbol "x", .integer 2] .nil
    let caller := session.env
    (∃ s : EvalState, session.LeavesGlobal "x" (fun alarm => (Level.watched alarm false
        900).evaluateBody ((caller.push 1).push s.store.tables.size) [body])
          ⟨(s.store.allocate .empty).2, s.events⟩) ∧
      session.global? "x" after = some (.integer 1) ∧
      (after.table 1).get? "x" = some (.integer 2) := by
  intro session p after body caller
  have hp : p.Reached := .run (.register .refl) List.mem_cons_self false _
  have hmem : session ∈ p.sessions := List.mem_cons_self
  let picks := Moment.isEntry caller (.closure .nil (.pair body .nil) 1) .nil
  let s := finalState (session.program false "(f)" p.world ⟨picks, .missingHalf⟩
    ⟨p.world.store, []⟩)
  have hmeets : Meets (session.program false "(f)" p.world) picks ⟨p.world.store, []⟩ s :=
    Session.program_meets (by decide +kernel) (by decide +kernel)
  have hbound : "x" ∈ (s.store.table 1).names := by decide +kernel
  refine ⟨⟨s, ?_⟩, by decide +kernel, by decide +kernel⟩
  exact ((global_of_call hp hmem false "(f)" "x").2 caller .nil (.pair body .nil) 1 .nil s
    (enters_of_meets hmeets) hbound 900 [body] _ rfl rfl).2.1

end Process

end MiniScheme
