import MiniScheme.Proofs.Eval.Outcome
import MiniScheme.Proofs.Session.Process

/-!
# Where names are bound

Every environment in which a session evaluates something ends in the root of the session. So a
`define` binds there, however deep it stands, and the tables that closures have captured get no new
names; the names of the root stay where they are, and new ones come after them. All this is so at
every moment of an evaluation, whatever comes of it.

## Main definitions

* `Moment.definesOutside`: a `define` is about to bind in another root.
* `Moment.Mentions`: a closure is there.

## Main statements

* `Process.Ordered.layouts_of_meets`: the layout at a moment lies between those before and after.
* `Process.names_of_run`: which names are bound where.
-/

namespace MiniScheme

/-! ## Moments -/

namespace Moment

/-- A `define` is about to be executed in an environment that ends elsewhere. -/
def definesOutside (root : TableId) : Moment → Bool
  | entry env (.form .define _) _ _ => env.root ≠ root
  | _ => false

def values : Moment → List Value
  | entry _ v operands _ => [v, operands]
  | result v _ => [v]

/-- At a moment there is a closure that captured a table: at hand, or bound somewhere. -/
def Mentions (captured : TableId) (m : Moment) : Prop :=
  ∃ v formals body, (v ∈ m.values ∨ ∃ id x, (m.store.table id).get? x = some v) ∧
    .closure formals body captured ∈ v.closures

end Moment

namespace Process

variable {l : Layout} {p : Process} {session : Session}

/-- The layout at a moment of a run lies between those before and after it. -/
theorem Ordered.layouts_of_meets (h : Ordered l p) (hmem : session ∈ p.sessions) {traced : Bool}
    {source : String} {picks : Moment → Bool} {s₁ : EvalState}
    (hmeets : Meets (session.program traced source p.world) picks ⟨p.world.store, []⟩ s₁) :
    ∃ m l₁ l', picks m = true ∧ l.Le l₁ ∧ l₁.Le l' ∧ l₁.Describes s₁.store ∧
      l'.Describes (session.run traced source p.world).world.store ∧
      (Layout.discipline session.root).Admits l₁ m ∧
      ∀ captured, m.Mentions captured → (l₁.snapshot captured).isSome = true := by
  have htracks (f : Fault) := (Layout.matched session.root (a := ⟨picks, f⟩) (b := .silent)
    (by simp [Alarm.silent]) traced p.world.limit).program (h.env hmem) source
  obtain ⟨l₁, m, hpick, hstore, hle, hkeeps, hm, hends⟩ :=
    Discipline.ends_of_meets htracks (h.keeps session.root) hmeets
  obtain ⟨l', hle', hfinal, -⟩ := hends.final
  have hafter : l'.Describes (session.run traced source p.world).world.store := by
    rw [Session.run_world]
    exact hfinal.store
  refine ⟨m, l₁, l', hpick, hle, hle', hkeeps.store, hafter, hm, ?_⟩
  -- whatever is at hand at the moment is allowed by its layout, which knows each captured table
  rintro captured ⟨v, formals, body, hv, hclosure⟩
  have hallows : (Layout.discipline session.root).Allows l₁ v := by
    rcases hv with hv | ⟨id, x, hget⟩
    · cases m with
      | entry env u operands store =>
        rcases List.mem_cons.mp hv with rfl | hv
        · exact hm.2.1
        · exact List.mem_singleton.mp hv ▸ hm.2.2
      | result u store => exact List.mem_singleton.mp hv ▸ hm
    · rw [hstore] at hget
      exact hkeeps.values hget
  have hsnapshot : l₁.snapshot captured = some (formals, body) :=
    hallows formals body captured hclosure
  simp [hsnapshot]

/-- No `define` is executed in an environment that does not end in the root of the session. -/
theorem Ordered.avoids_definesOutside (h : Ordered l p) (hmem : session ∈ p.sessions)
    (traced : Bool) (source : String) :
    Avoids (session.program traced source p.world) (Moment.definesOutside session.root)
      ⟨p.world.store, []⟩ := by
  intro s₁ hmeets
  obtain ⟨m, l₁, -, hpick, -, -, -, -, hm, -⟩ := h.layouts_of_meets hmem hmeets
  unfold Moment.definesOutside at hpick
  split at hpick
  · next env _ _ _ =>
    have hroot : env.root = session.root := hm.1.1
    simp [hroot] at hpick
  · cases hpick

/-- **Domains.** In every run in a session, whatever comes of it:

* every `define` is executed in an environment that ends in the root of the session, and there it
  binds its name in this root and nowhere else;
* the table that a closure has captured has the same names after the run as at every moment at
  which the closure is there, so from the moment on at which it was made;
* the names of the root come first, in their order, at every later moment. -/
theorem names_of_run (hp : p.Reached) (hmem : session ∈ p.sessions) (traced : Bool)
    (source : String) :
    let program := session.program traced source p.world
    let before : EvalState := ⟨p.world.store, []⟩
    let after := (session.run traced source p.world).world.store
    (Avoids program (Moment.definesOutside session.root) before ∧
      ∀ (level : Level) (env : Env) (operands : Value) (s : EvalState), env.root = session.root →
        (∃ f, Form.runDefine level env operands s = .error f s) ∨
          ∃ x e, operands.properItems = .ok [.symbol x, e] ∧
            ((∃ f s₁, level.evaluate env e s = .error f s₁ ∧
                Form.runDefine level env operands s = .error f s₁) ∨
              ∃ v s₁, level.evaluate env e s = .ok v s₁ ∧ Form.runDefine level env operands s =
                .ok v { s₁ with store := s₁.store.define session.root x v })) ∧
    ((∀ formals body captured, p.HasClosure formals body captured →
        (after.table captured).names = (p.world.store.table captured).names) ∧
      ∀ picks s₁ captured, Meets program picks before s₁ →
        (∀ m, picks m = true → m.Mentions captured) →
        (after.table captured).names = (s₁.store.table captured).names) ∧
    ((p.world.store.table session.root).names <+: (after.table session.root).names ∧
      ∀ picks s₁, Meets program picks before s₁ →
        (p.world.store.table session.root).names <+: (s₁.store.table session.root).names ∧
          (s₁.store.table session.root).names <+: (after.table session.root).names) := by
  intro program before after
  obtain ⟨l, hl⟩ := hp.ordered
  obtain ⟨l', hle, hl'⟩ := hl.run hmem traced source
  have hroot := hl.roots hmem
  refine ⟨⟨hl.avoids_definesOutside hmem traced source, ?_⟩, ⟨?_, ?_⟩, ?_, ?_⟩
  · intro level env operands s henv
    rw [← henv]
    exact Form.runDefine_cases level env operands s
  · intro formals body captured hclosure
    have hsome : (l.snapshot captured).isSome = true := by simp [hl.closures hclosure]
    rw [← hl.store.names, ← hle.fixed hsome]
    exact (hl'.store.names captured).symm
  · intro picks s₁ captured hmeets hmentions
    obtain ⟨m, l₁, l₂, hpick, -, hle₂, hs₁, hafter, -, hsome⟩ := hl.layouts_of_meets hmem hmeets
    rw [← hafter.names, ← hs₁.names]
    exact hle₂.fixed (hsome captured (hmentions m hpick))
  · rw [← hl.store.names]
    exact hl'.store.names _ ▸ hle.names hroot.1
  · intro picks s₁ hmeets
    obtain ⟨m, l₁, l₂, -, hle₁, hle₂, hs₁, hafter, -, -⟩ := hl.layouts_of_meets hmem hmeets
    rw [← hl.store.names, ← hs₁.names, ← hafter.names]
    exact ⟨hle₁.names hroot.1, hle₂.names (hle₁.free hroot).1⟩

/-- A `define` in the body of a closure binds in the root, after all names that were there, and the
closure has captured what it had captured before. -/
theorem names_of_nested_define :
    let p := initial.register.run ⟨0⟩ false "(define f (lambda (x) (define y x)))"
    let after := ((⟨0⟩ : Session).run false "(f 2)" p.world).world.store
    (p.world.store.table 0).names <+: (after.table 0).names ∧
      (after.table 1).names = (p.world.store.table 1).names ∧
      (after.table 0).get? "y" = some (.integer 2) := by
  intro p after
  have hp : p.Reached := .run (.register .refl) List.mem_cons_self false _
  have hmem : (⟨0⟩ : Session) ∈ p.sessions := List.mem_cons_self
  have hbound : (p.world.store.table 0).get? "f" = some (.closure (.pair (.symbol "x") .nil)
      (.pair (.chain [.symbol "define", .symbol "y", .symbol "x"] .nil) .nil) 1) := by
    decide +kernel
  have hclosure : p.HasClosure (.pair (.symbol "x") .nil)
      (.pair (.chain [.symbol "define", .symbol "y", .symbol "x"] .nil) .nil) 1 :=
    ⟨_, .inr ⟨0, "f", hbound⟩, List.mem_cons_self⟩
  obtain ⟨-, ⟨hcaptured, -⟩, hroot, -⟩ := names_of_run hp hmem false "(f 2)"
  refine ⟨hroot, hcaptured _ _ _ hclosure, ?_⟩
  decide +kernel

end Process

end MiniScheme
