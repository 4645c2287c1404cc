import MiniScheme.Proofs.Eval.Rules
import MiniScheme.Proofs.Reader.Grammar

/-!
# What happens in the course of an evaluation

An evaluation comes to a moment if raising a fault there, whichever it is, ends the evaluation
there. It either comes to a moment that a test picks or goes on as if nothing could ring.

## Main definitions

* `Meets`, `Avoids`: an evaluation comes, or does not come, to a moment that a test picks.
* `Enters`, `Moment.isEntry`: an evaluation comes to the evaluation of a given part.
* `Until`: what is so of the store up to the first moment that a test picks.

## Main statements

* `Discipline.ends_of_meets`: the world of a moment lies between those before and after the
  evaluation.
* `Discipline.avoids_of_tracks`: moments that do not come up in a discipline.
* `Discipline.until_of_tracks`: what a discipline says up to the moments that it cannot deal with.
* `Session.program_eq_of_avoids`, `Session.program_meets`: an alarm makes a difference to a program
  just if it picks a moment to which the program comes.
-/

namespace MiniScheme

/-- A computation that is watched comes to a moment that a test picks, first in the given state:
any fault that is raised at such moments ends it there. -/
def Meets {α : Type} (c : Alarm → EvalM α) (picks : Moment → Bool) (s s₁ : EvalState) : Prop :=
  ∀ f : Fault, c ⟨picks, f⟩ s = .error f s₁

def Avoids {α : Type} (c : Alarm → EvalM α) (picks : Moment → Bool) (s : EvalState) : Prop :=
  ∀ s₁, ¬ Meets c picks s s₁

def Moment.isEntry (env : Env) (v operands : Value) : Moment → Bool
  | entry env' v' operands' _ => env' = env ∧ v' = v ∧ operands' = operands
  | result _ _ => false

/-- A computation that is watched comes to the evaluation of a value in front of operands in an
environment, where it is in the given state. -/
def Enters {α : Type} (c : Alarm → EvalM α) (s : EvalState) (env : Env) (v operands : Value)
    (s₁ : EvalState) : Prop :=
  ∃ picks : Moment → Bool, Meets c picks s s₁ ∧
    ∀ m, picks m = true → ∃ store, m = .entry env v operands store

theorem Moment.exists_eq_entry {env : Env} {v operands : Value} {m : Moment}
    (h : isEntry env v operands m = true) : ∃ store, m = .entry env v operands store := by
  cases m with
  | entry env' v' operands' store =>
    obtain ⟨rfl, rfl, rfl⟩ : env' = env ∧ v' = v ∧ operands' = operands := by
      simpa [isEntry] using h
    exact ⟨store, rfl⟩
  | result v' store => cases h

theorem enters_of_meets {α : Type} {c : Alarm → EvalM α} {s s₁ : EvalState} {env : Env}
    {v operands : Value} (h : Meets c (Moment.isEntry env v operands) s s₁) :
    Enters c s env v operands s₁ :=
  ⟨_, h, fun _ hm => Moment.exists_eq_entry hm⟩

/-- A property of the store holds until a moment that a test picks: at every moment up to the first
such one, and at the end if there is none. -/
def Until {α : Type} (c : Alarm → EvalM α) (stop : Moment → Bool) (s : EvalState)
    (P : Store → Prop) : Prop :=
  (∀ (picks : Moment → Bool) s₁, Meets c (fun m => picks m || stop m) s s₁ → P s₁.store) ∧
    (Avoids c stop s → P (finalState (c .silent s)).store)

theorem Until.imp {α : Type} {c : Alarm → EvalM α} {stop : Moment → Bool} {s : EvalState}
    {P Q : Store → Prop} (h : Until c stop s P) (hPQ : ∀ store, P store → Q store) :
    Until c stop s Q :=
  ⟨fun picks s₁ hmeets => hPQ _ (h.1 picks s₁ hmeets), fun havoids => hPQ _ (h.2 havoids)⟩

theorem Until.and {α : Type} {c : Alarm → EvalM α} {stop : Moment → Bool} {s : EvalState}
    {P Q : Store → Prop} (hP : Until c stop s P) (hQ : Until c stop s Q) :
    Until c stop s fun store => P store ∧ Q store :=
  ⟨fun picks s₁ hmeets => ⟨hP.1 picks s₁ hmeets, hQ.1 picks s₁ hmeets⟩,
    fun havoids => ⟨hP.2 havoids, hQ.2 havoids⟩⟩

def isAnswered {α : Type} : EStateM.Result Fault EvalState α → Bool
  | .ok _ _ => true
  | .error _ _ => false

/-- A computation that has an answer under an alarm does not come to a moment that it picks. -/
theorem avoids_of_isAnswered {α : Type} {c : Alarm → EvalM α} {picks : Moment → Bool}
    {s : EvalState} (f : Fault) (h : isAnswered (c ⟨picks, f⟩ s) = true) : Avoids c picks s := by
  intro s₁ hmeets
  rw [hmeets f] at h
  cases h

/-! ## Programs -/

def Reader.Phrase.Plain : Reader.Phrase → Prop
  | .expr v => v.closures = []
  | .items vs => ∀ v ∈ vs, v.closures = []

theorem Value.closures_chain {vs : List Value} {w : Value} (hvs : ∀ v ∈ vs, v.closures = [])
    (hw : w.closures = []) : (Value.chain vs w).closures = [] := by
  induction vs with
  | nil => exact hw
  | cons v vs ih =>
    obtain ⟨hv, hvs⟩ := List.forall_mem_cons.mp hvs
    simp [Value.closures, hv, ih hvs]

/-- No closure is read from tokens. -/
theorem Reader.Derives.plain {room : Nat} {ts : List Token} {phrase : Reader.Phrase}
    (h : Reader.Derives room ts phrase) : phrase.Plain := by
  induction h with
  | quote h ih => exact ih
  | list first rest ihfirst ihrest =>
    exact Value.closures_chain (List.forall_mem_cons.mpr ⟨ihfirst, ihrest⟩) rfl
  | dotted first rest last ihfirst ihrest ihlast =>
    exact Value.closures_chain (List.forall_mem_cons.mpr ⟨ihfirst, ihrest⟩) ihlast
  | empty | boolean | integer | string | symbol => rfl
  | none room => simp [Phrase.Plain]
  | item before h hdot ihbefore ih =>
    intro v hv
    rcases List.mem_append.mp hv with hv | hv
    · exact ihbefore v hv
    · obtain rfl := List.mem_singleton.mp hv
      exact ih

/-- Each expression of a program is derived from some tokens. -/
theorem Session.exists_derives_of_mem_forms {limit : Nat} {source : String} {e : Value}
    (h : e ∈ Session.forms limit source) : ∃ ts, Reader.Derives (limit - 1) ts (.expr e) := by
  unfold Session.forms at h
  split at h
  · simp at h
  · next tokens _ =>
    obtain ⟨us, rest, -, hforms, -⟩ := Cursor.forms_of_readAll limit tokens
    obtain ⟨ts, -, hderives⟩ := hforms.exists_derives h
    exact ⟨ts, hderives⟩

/-- A program has no closures. -/
theorem Session.closures_of_mem_forms {limit : Nat} {source : String} {e : Value}
    (h : e ∈ Session.forms limit source) : e.closures = [] := by
  obtain ⟨ts, hderives⟩ := Session.exists_derives_of_mem_forms h
  exact hderives.plain

namespace Discipline

variable {D : Discipline} {α : Type} {a b : Alarm} {good : D.World → α → Prop} {w : D.World}

/-- A program keeps the disciplines in which it may start. -/
theorem Matched.program {session : Session} {traced : Bool} {world : MiniScheme.World}
    (h : D.Matched a b (.watched a traced world.limit) (.watched b traced world.limit))
    (henv : D.env w session.env) (source : String) :
    Tracks a b w (session.program traced source world a) (session.program traced source world b)
      D.Allows := by
  refine h.evaluateForms henv (allows_of_closures_eq_nil rfl) fun e he => ?_
  exact allows_of_closures_eq_nil (Session.closures_of_mem_forms he)

/-! ## Coming to a moment -/

theorem Follows.eq_or_stopped {r₁ r₂ : EStateM.Result Fault EvalState α}
    (h : Follows a b good w r₁ r₂) :
    r₁ = r₂ ∨ ∃ w₁ m s₁, r₁ = .error a.fault s₁ ∧ a.picks m = true ∧ m.store = s₁.store ∧
      D.le w w₁ ∧ D.Keeps w₁ s₁.store ∧ D.Admits w₁ m ∧
      (b.picks m = true → r₂ = .error b.fault s₁) ∧ Ends good w₁ r₂ := by
  cases h with
  | same h => exact .inl rfl
  | stopped hpick hstore hle hs hm hb hr =>
    exact .inr ⟨_, _, _, rfl, hpick, hstore, hle, hs, hm, hb, hr⟩

/-- Some fault is not the outcome of a computation anyway. -/
theorem exists_fault_ne (r : EStateM.Result Fault EvalState α) : ∃ f, ∀ s, r ≠ .error f s := by
  cases r with
  | ok v s => exact ⟨.tooDeep, by simp⟩
  | error g s =>
    by_cases hg : g = .tooDeep
    · exact ⟨.defineCount, by simp [hg]⟩
    · exact ⟨.tooDeep, by simp [hg]⟩

/-- The world of a moment to which a computation comes lies between those before and after it. -/
theorem ends_of_meets {c : Alarm → EvalM α} {picks : Moment → Bool} {s s₁ : EvalState}
    (h : ∀ f, Tracks ⟨picks, f⟩ .silent w (c ⟨picks, f⟩) (c .silent) good)
    (hs : D.Keeps w s.store) (hmeets : Meets c picks s s₁) :
    ∃ w₁ m, picks m = true ∧ m.store = s₁.store ∧ D.le w w₁ ∧ D.Keeps w₁ s₁.store ∧
      D.Admits w₁ m ∧ Ends good w₁ (c .silent s) := by
  obtain ⟨f, hf⟩ := exists_fault_ne (c .silent s)
  rcases (h f s hs).eq_or_stopped with heq | ⟨w₁, m, s', heq, hpick, hstore, hle, hs₁, hm, -, hr⟩
  · exact absurd (heq ▸ hmeets f) (hf s₁)
  · rw [hmeets f] at heq
    cases heq
    exact ⟨w₁, m, hpick, hstore, hle, hs₁, hm, hr⟩

/-- What a discipline says of an evaluation that a computation comes to. -/
theorem keeps_of_enters {c : Alarm → EvalM α} {s s₁ : EvalState} {env : Env} {v operands : Value}
    (h : ∀ a, Tracks a .silent w (c a) (c .silent) good) (hs : D.Keeps w s.store)
    (henters : Enters c s env v operands s₁) :
    ∃ w₁, D.le w w₁ ∧ D.Keeps w₁ s₁.store ∧ D.env w₁ env ∧ D.Allows w₁ v ∧
      D.Allows w₁ operands := by
  obtain ⟨picks, hmeets, hpicks⟩ := henters
  obtain ⟨w₁, m, hpick, -, hle, hkeeps, hm, -⟩ := ends_of_meets (fun f => h ⟨picks, f⟩) hs hmeets
  obtain ⟨store, rfl⟩ := hpicks m hpick
  exact ⟨w₁, hle, hkeeps, hm⟩

/-! ## Coming to no moment -/

def lax : Discipline where
  World := Unit
  le _ _ := True
  le_refl _ := trivial
  le_trans _ _ := trivial
  store _ _ := True
  closure _ _ _ _ := True
  env _ _ := True
  frame _ _ := True
  closure_mono _ _ := trivial
  env_mono _ _ := trivial
  frame_mono _ _ := trivial
  opens _ := ⟨(), trivial, trivial, trivial⟩
  fills _ _ _ _ := ⟨(), trivial, trivial⟩
  encloses _ _ := trivial
  assigns _ _ _ _ _ := ⟨(), trivial, trivial⟩
  defines _ _ _ _ := ⟨(), trivial, trivial⟩
  captures _ _ _ _ := ⟨(), trivial, trivial, trivial⟩

theorem lax_allows (v : Value) : lax.Allows () v := fun _ _ _ _ => trivial

theorem lax_keeps (s : Store) : lax.Keeps () s := ⟨trivial, fun _ => lax_allows _⟩

theorem lax_matched (hweaker : ∀ m, b.picks m = true → a.picks m = true) (traced : Bool)
    (depth : Nat) : lax.Matched a b (.watched a traced depth) (.watched b traced depth) :=
  matched hweaker (fun _ _ _ => trivial) (fun _ _ _ _ => trivial)
    (fun h => h.calls fun _ _ => trivial) traced depth

/-- An alarm that makes a difference to a computation rings at a moment that it picks. -/
theorem meets_of_ne_silent {c : Alarm → EvalM α} {picks : Moment → Bool} {s : EvalState}
    {good : lax.World → α → Prop}
    (h : ∀ {a b : Alarm}, (∀ m, b.picks m = true → a.picks m = true) →
      Tracks a b () (c a) (c b) good) {f : Fault} (hne : c ⟨picks, f⟩ s ≠ c .silent s) :
    Meets c picks s (finalState (c ⟨picks, f⟩ s)) := by
  have hsilent (g : Fault) : Follows ⟨picks, g⟩ .silent good () (c ⟨picks, g⟩ s) (c .silent s) :=
    h (by simp [Alarm.silent]) s (lax_keeps _)
  have hboth (g : Fault) :
      Follows ⟨picks, f⟩ ⟨picks, g⟩ good () (c ⟨picks, f⟩ s) (c ⟨picks, g⟩ s) := by
    refine h ?_ s (lax_keeps _)
    exact fun _ hm => hm
  rcases (hsilent f).eq_or_stopped with heq | ⟨-, -, s₁, hring, -⟩
  · exact absurd heq hne
  · -- every other fault ends the computation at the same moment
    intro g
    rw [hring]
    rcases (hboth g).eq_or_stopped with hsame | ⟨-, m, s', hring', hpick, -, -, -, -, hb, -⟩
    · rcases (hsilent g).eq_or_stopped with hg | ⟨-, -, s', hring', -⟩
      · exact absurd (hsame.trans hg) hne
      · rw [hring, hring'] at hsame
        cases hsame
        exact hring'
    · rw [hring] at hring'
      cases hring'
      exact hb hpick

/-- A computation that has an answer, but none under an alarm, comes to a moment that the alarm
picks. -/
theorem meets_of_isAnswered {c : Alarm → EvalM α} {picks : Moment → Bool} {s : EvalState}
    {good : lax.World → α → Prop}
    (h : ∀ {a b : Alarm}, (∀ m, b.picks m = true → a.picks m = true) →
      Tracks a b () (c a) (c b) good) {f : Fault} (hanswered : isAnswered (c .silent s) = true)
    (hrings : isAnswered (c ⟨picks, f⟩ s) = false) :
    Meets c picks s (finalState (c ⟨picks, f⟩ s)) := by
  refine meets_of_ne_silent h fun heq => ?_
  rw [heq, hanswered] at hrings
  cases hrings

/-- An alarm makes no difference to a computation that comes to no moment that it picks. -/
theorem eq_silent_of_avoids {c : Alarm → EvalM α} {picks : Moment → Bool} {s : EvalState}
    {good : lax.World → α → Prop}
    (h : ∀ {a b : Alarm}, (∀ m, b.picks m = true → a.picks m = true) →
      Tracks a b () (c a) (c b) good)
    (havoids : Avoids c picks s) (f : Fault) : c ⟨picks, f⟩ s = c .silent s := by
  apply Classical.byContradiction
  intro hne
  exact havoids _ (meets_of_ne_silent h hne)

theorem avoids_never {c : Alarm → EvalM α} {s : EvalState} {good : lax.World → α → Prop}
    (h : ∀ {a b : Alarm}, (∀ m, b.picks m = true → a.picks m = true) →
      Tracks a b () (c a) (c b) good) : Avoids c (fun _ => false) s := by
  intro s₁ hmeets
  obtain ⟨f, hf⟩ := exists_fault_ne (c .silent s)
  have hsilent : Follows ⟨fun _ => false, f⟩ .silent good () (c ⟨fun _ => false, f⟩ s)
      (c .silent s) := h (by simp [Alarm.silent]) s (lax_keeps _)
  rcases hsilent.eq_or_stopped with heq | ⟨-, m, -, -, hpick, -⟩
  · rw [hmeets f] at heq
    exact hf s₁ heq.symm
  · cases hpick

section Bind

variable {β : Type} {c : Alarm → EvalM α} {k : Alarm → α → EvalM β} {picks : Moment → Bool}
  {s s₁ : EvalState} {good : lax.World → α → Prop}
  (hlax : ∀ {a b : Alarm}, (∀ m, b.picks m = true → a.picks m = true) →
    Tracks a b () (c a) (c b) good)
include hlax

/-- One computation after another comes to a moment in the first one or in the second one. -/
theorem meets_bind (h : Meets (fun a => c a >>= k a) picks s s₁) :
    Meets c picks s s₁ ∨ Avoids c picks s ∧
      ∃ v s', c .silent s = .ok v s' ∧ Meets (fun a => k a v) picks s' s₁ := by
  simp only [Meets, Bind.bind, EStateM.bind] at h
  by_cases havoids : Avoids c picks s
  · refine .inr ⟨havoids, ?_⟩
    simp only [eq_silent_of_avoids hlax havoids] at h
    cases hc : c .silent s with
    | ok v s' => exact ⟨v, s', rfl, fun f => by simpa [hc] using h f⟩
    | error g s' =>
      obtain ⟨f, hf⟩ := exists_fault_ne (c .silent s)
      obtain ⟨rfl, rfl⟩ : g = f ∧ s' = s₁ := by simpa [hc] using h f
      exact absurd hc (hf s')
  · obtain ⟨s', hmeets⟩ := not_forall_not.mp havoids
    obtain rfl : s' = s₁ := by simpa [hmeets .tooDeep] using h .tooDeep
    exact .inl hmeets

/-- If both together come to no moment, then neither does. -/
theorem avoids_bind (h : Avoids (fun a => c a >>= k a) picks s) :
    Avoids c picks s ∧
      ∀ v s', c .silent s = .ok v s' → Avoids (fun a => k a v) picks s' := by
  have hfirst : Avoids c picks s := by
    intro s₁ hmeets
    refine h s₁ fun f => ?_
    simp only [Bind.bind, EStateM.bind, hmeets f]
  refine ⟨hfirst, fun v s' hc s₁ hmeets => h s₁ fun f => ?_⟩
  simp only [Bind.bind, EStateM.bind, eq_silent_of_avoids hlax hfirst, hc]
  exact hmeets f

end Bind

/-- A computation that comes to no moment of one kind comes to none of another, if a discipline that
can deal with all but the first kind does not admit the second. -/
theorem avoids_of_tracks {c : Alarm → EvalM α} {stop picks : Moment → Bool} {s : EvalState}
    {good' : lax.World → α → Prop}
    (hlax : ∀ {a b : Alarm}, (∀ m, b.picks m = true → a.picks m = true) →
      Tracks a b () (c a) (c b) good')
    (h : ∀ f, Tracks ⟨fun m => stop m || picks m, f⟩ ⟨stop, f⟩ w
      (c ⟨fun m => stop m || picks m, f⟩) (c ⟨stop, f⟩) good)
    (hs : D.Keeps w s.store)
    (hadmits : ∀ {w' m}, D.le w w' → D.Keeps w' m.store → D.Admits w' m → picks m = false)
    (havoids : Avoids c stop s) : Avoids c picks s := by
  have hboth (f : Fault) : c ⟨fun m => stop m || picks m, f⟩ s = c .silent s := by
    rw [← eq_silent_of_avoids hlax havoids f]
    rcases (h f s hs).eq_or_stopped with
      heq | ⟨w₁, m, s₁, hring, hpick, hstore, hle, hs₁, hm, hb, -⟩
    · exact heq
    · have hstop : stop m = true := by
        simpa [hadmits hle (hstore ▸ hs₁) hm] using hpick
      rw [hring, hb hstop]
  intro s₁ hmeets
  obtain ⟨f, hf⟩ := exists_fault_ne (c .silent s)
  have hweaker : ∀ m, picks m = true → (stop m || picks m) = true := by simp +contextual
  rcases (hlax (a := ⟨fun m => stop m || picks m, f⟩) (b := ⟨picks, f⟩) hweaker s
    (lax_keeps _)).eq_or_stopped with heq | ⟨-, -, s', hring, -⟩
  · rw [hboth f, hmeets f] at heq
    exact hf s₁ heq
  · rw [hboth f] at hring
    exact hf s' hring

/-- What a discipline says of the stores that it keeps holds until a moment that it cannot deal
with. -/
theorem until_of_tracks {c : Alarm → EvalM α} {stop : Moment → Bool} {s : EvalState}
    {good' : lax.World → α → Prop}
    (hlax : ∀ {a b : Alarm}, (∀ m, b.picks m = true → a.picks m = true) →
      Tracks a b () (c a) (c b) good')
    (h : ∀ a : Alarm, (∀ m, stop m = true → a.picks m = true) → Tracks a a w (c a) (c a) good)
    (hs : D.Keeps w s.store) {P : Store → Prop}
    (hP : ∀ {w' store}, D.le w w' → D.store w' store → P store) : Until c stop s P := by
  refine ⟨fun picks s₁ hmeets => ?_, fun havoids => ?_⟩
  · let a : Alarm := ⟨fun m => picks m || stop m, .tooDeep⟩
    obtain ⟨w', hle, hkeeps, -⟩ := (h a (fun m hm => by simp [a, hm]) s hs).ends.final
    rw [show c a s = .error .tooDeep s₁ from hmeets .tooDeep] at hkeeps
    exact hP hle hkeeps.store
  · let a : Alarm := ⟨stop, .tooDeep⟩
    obtain ⟨w', hle, hkeeps, -⟩ := (h a (fun _ hm => hm) s hs).ends.final
    rw [show c a s = c .silent s from eq_silent_of_avoids hlax havoids .tooDeep] at hkeeps
    exact hP hle hkeeps.store

theorem until_evaluateBody {traced : Bool} {depth : Nat} {env : Env} {es : List Value}
    {stop : Moment → Bool} {s : EvalState}
    (hmatched : ∀ a : Alarm, (∀ m, stop m = true → a.picks m = true) →
      D.Matched a a (.watched a traced depth) (.watched a traced depth))
    (henv : D.env w env) (hes : ∀ e ∈ es, D.Allows w e) (hs : D.Keeps w s.store) {P : Store → Prop}
    (hP : ∀ {w' store}, D.le w w' → D.store w' store → P store) :
    Until (fun alarm => (Level.watched alarm traced depth).evaluateBody env es) stop s P :=
  until_of_tracks (fun hweaker => (lax_matched hweaker traced depth).evaluateBody trivial
    fun _ _ => lax_allows _) (fun a ha => (hmatched a ha).evaluateBody henv hes) hs hP

end Discipline

namespace Session

variable {session : Session} {traced : Bool} {source : String} {world : World}
  {picks : Moment → Bool} {s : EvalState}

theorem program_tracks {a b : Alarm} (hweaker : ∀ m, b.picks m = true → a.picks m = true) :
    Discipline.Tracks a b () (session.program traced source world a)
      (session.program traced source world b) Discipline.lax.Allows :=
  (Discipline.lax_matched hweaker traced world.limit).program trivial source

theorem program_eq_of_avoids (h : Avoids (session.program traced source world) picks s)
    (f : Fault) :
    session.program traced source world ⟨picks, f⟩ s =
      session.program traced source world .silent s :=
  Discipline.eq_silent_of_avoids program_tracks h f

theorem program_meets {f : Fault}
    (hanswered : isAnswered (session.program traced source world .silent s) = true)
    (hrings : isAnswered (session.program traced source world ⟨picks, f⟩ s) = false) :
    Meets (session.program traced source world) picks s
      (finalState (session.program traced source world ⟨picks, f⟩ s)) :=
  Discipline.meets_of_isAnswered program_tracks hanswered hrings

end Session

end MiniScheme
