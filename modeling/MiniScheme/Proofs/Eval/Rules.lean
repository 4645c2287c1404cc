import MiniScheme.Proofs.Eval.Formals

/-!
# The rules of evaluation keep every discipline

Each rule is a computation over a level. Over two levels that agree on what they evaluate, it is
tracked; this is shown rule by rule, and for evaluation as a whole by induction on the depth.

How a discipline deals with the call of a closure is left to it: the captured table comes into the
environment there, and a discipline may have reasons of its own why this does no harm. If it cannot
deal with the definition of some names, an alarm has to ring before these.

## Main definitions

* `Discipline.Matched`: levels that agree.
* `Discipline.Calls`, `Discipline.Defines`: calls of closures, and definitions, keep a discipline.

## Main statements

* `Discipline.Matched.step`: one rule.
* `Discipline.Matched.succ`, `Discipline.matched`: evaluation with any depth.
* `Discipline.Matched.evaluateForms`: expressions in turn.
-/

namespace MiniScheme

/-! ## Answers of natives -/

namespace Native

def Yields (P : Value → Prop) : Except Fault Value → Prop
  | .ok v => P v
  | .error _ => True

theorem yields_bind {α : Type} {P : Value → Prop} {x : Except Fault α}
    {f : α → Except Fault Value} (h : ∀ v, Yields P (f v)) : Yields P (x >>= f) := by
  cases x with
  | error e => trivial
  | ok v => exact h v

/-- A native makes no closures: those in its answer come from its arguments. -/
theorem yields_compute (depth : Nat) (p : Native) (args : List Value) :
    Yields (fun v => v.closures ⊆ args.flatMap Value.closures) (p.compute depth args) := by
  unfold compute
  split
  · exact yields_bind fun ns => List.nil_subset _
  · refine yields_bind fun ns => ?_
    cases ns with
    | nil => trivial
    | cons n ns => exact List.nil_subset _
  · exact yields_bind fun ns => List.nil_subset _
  · refine yields_bind fun ns => ?_
    cases ns with
    | nil => trivial
    | cons n ds => exact yields_bind fun q => List.nil_subset _
  · exact yields_bind fun _ => yields_bind fun _ => List.nil_subset _
  · exact yields_bind fun _ => List.nil_subset _
  · exact yields_bind fun _ => List.nil_subset _
  · split
    · exact List.nil_subset _
    · trivial
  · exact List.nil_subset _
  · exact List.nil_subset _
  · exact yields_bind fun _ => List.nil_subset _
  · simp [Yields, Value.closures_chain_nil]
  · simp [Yields, Value.closures]
  · simp [Yields, Value.closures]
  · trivial
  · simp [Yields, Value.closures]
  · trivial
  · trivial

end Native

namespace Discipline

variable {D : Discipline} {a b : Alarm}

namespace Tracks

/-! ## The store -/

variable {w : D.World} {env : Env}

theorem lookup (env : Env) (x : String) :
    Tracks a b w (EvalM.lookup env x) (EvalM.lookup env x) D.Allows := by
  refine .of_ends fun s hs => ?_
  rw [EvalM.lookup_eq]
  cases hget : s.store.get? env x with
  | none => exact .error (D.le_refl w) hs
  | some v => exact .ok (D.le_refl w) hs (hs.allows_get? hget)

theorem openScope :
    Tracks a b w (EvalM.allocate .empty) (EvalM.allocate .empty) D.frame := by
  refine .of_ends fun s hs => ?_
  obtain ⟨w', hle, hkeeps, hframe⟩ := hs.opens
  exact .ok hle hkeeps hframe

theorem define {frame : TableId} (hframe : D.frame w frame) (x : String) {v : Value}
    (hv : D.Allows w v) :
    Tracks a b w (EvalM.define frame x v) (EvalM.define frame x v) fun _ _ => True := by
  refine .of_ends fun s hs => ?_
  obtain ⟨w', hle, hkeeps⟩ := hs.fills hframe x hv
  exact .ok hle hkeeps trivial

theorem defineGlobal (henv : D.env w env) {x : String} (hx : D.definable x) {v : Value}
    (hv : D.Allows w v) :
    Tracks a b w (EvalM.defineGlobal env x v) (EvalM.defineGlobal env x v) fun _ _ => True := by
  refine .of_ends fun s hs => ?_
  obtain ⟨w', hle, hkeeps⟩ := hs.defines henv hx hv
  exact .ok hle hkeeps trivial

theorem assign (henv : D.env w env) {x : String} (hx : D.assignable w env x) {v : Value}
    (hv : D.Allows w v) :
    Tracks a b w (EvalM.assign env x v) (EvalM.assign env x v) fun _ _ => True := by
  refine .of_ends fun s hs => ?_
  rw [EvalM.assign_eq]
  cases hfind : s.store.find? env x with
  | none => exact .error (D.le_refl w) hs
  | some id =>
    obtain ⟨w', hle, hkeeps⟩ := hs.assigns henv hx hfind hv
    exact .ok hle hkeeps trivial

theorem capture (henv : D.env w env) {formals body : Value} {es : List Value}
    (hformals : formals.checkFormals = .ok ()) (hbody : body.properItems = .ok es) :
    Tracks a b w (EvalM.capture env) (EvalM.capture env)
      fun w captured => D.closure w formals body captured := by
  refine .of_ends fun s hs => ?_
  obtain ⟨w', hle, hkeeps, hclosure⟩ := hs.captures henv hformals hbody
  exact .ok hle hkeeps hclosure

end Tracks

/-- Levels that differ only in how a value is evaluated under the two alarms. -/
structure Matched (D : Discipline) (a b : Alarm) (level₁ level₂ : Level) : Prop where
  traced : level₁.traced = level₂.traced
  depth : level₁.depth = level₂.depth
  run : ∀ {w : D.World} {env : Env} {v operands : Value}, D.env w env → D.Allows w v →
    D.Allows w operands →
    Tracks a b w (level₁.run env v operands) (level₂.run env v operands) D.Allows

namespace Matched

variable {level₁ level₂ : Level} (h : D.Matched a b level₁ level₂) {w : D.World} {env : Env}
include h

/-! ## Levels -/

theorem raise {α : Type} {good : D.World → α → Prop} (f : Fault) :
    Tracks a b w (level₁.raise f) (level₂.raise f) good := by
  rw [Level.raise, Level.raise, h.depth]
  exact .throw _

theorem lift {α : Type} {good : D.World → α → Prop} {r : Except Fault α}
    (hr : ∀ v, r = .ok v → good w v) : Tracks a b w (level₁.lift r) (level₂.lift r) good := by
  cases r with
  | ok v => exact .pure (hr v rfl)
  | error f => exact h.raise f

theorem report (e : Event) :
    Tracks a b w (level₁.report e) (level₂.report e) fun _ _ => True := by
  unfold Level.report
  rw [h.traced, h.depth]
  split
  · split
    · exact .throw _
    · exact .of_ends fun s hs => .ok (D.le_refl w) hs trivial
  · exact .pure trivial

theorem items {v : Value} (hv : D.Allows w v) :
    Tracks a b w (level₁.items v) (level₂.items v) fun w vs => ∀ u ∈ vs, D.Allows w u :=
  h.lift fun _ hitems => allows_of_mem_properItems hv hitems

theorem evaluate {e : Value} (henv : D.env w env) (he : D.Allows w e) :
    Tracks a b w (level₁.evaluate env e) (level₂.evaluate env e) D.Allows :=
  h.run henv he (allows_of_closures_eq_nil rfl)

theorem apply {f operands : Value} (henv : D.env w env) (hf : D.Allows w f)
    (ho : D.Allows w operands) :
    Tracks a b w (level₁.apply env f operands) (level₂.apply env f operands) D.Allows := by
  unfold Level.apply
  split
  · exact h.run henv hf ho
  · exact h.raise _

theorem evaluateAll {es : List Value} (henv : D.env w env) (hes : ∀ e ∈ es, D.Allows w e) :
    Tracks a b w (level₁.evaluateAll env es) (level₂.evaluateAll env es)
      fun w vs => ∀ v ∈ vs, D.Allows w v := by
  induction es generalizing w with
  | nil => exact .pure (by simp)
  | cons e es ih =>
    obtain ⟨he, hes⟩ := List.forall_mem_cons.mp hes
    refine (h.evaluate henv he).bind fun w₁ v hle hv => ?_
    refine (ih (D.env_mono hle henv) fun u hu => (hes u hu).mono hle).bind fun w₂ vs hle' hvs => ?_
    exact .pure (List.forall_mem_cons.mpr ⟨hv.mono hle', hvs⟩)

theorem evaluateBody {es : List Value} (henv : D.env w env) (hes : ∀ e ∈ es, D.Allows w e) :
    Tracks a b w (level₁.evaluateBody env es) (level₂.evaluateBody env es) D.Allows := by
  induction es generalizing w with
  | nil => exact .pure (allows_of_closures_eq_nil rfl)
  | cons e es ih =>
    obtain ⟨he, hes⟩ := List.forall_mem_cons.mp hes
    cases es with
    | nil => exact h.evaluate henv he
    | cons e' es =>
      refine (h.evaluate henv he).bind fun w₁ v hle hv => ?_
      exact ih (D.env_mono hle henv) fun u hu => (hes u hu).mono hle

/-! ## Closures -/

theorem bindParameter {frame : TableId} (hframe : D.frame w frame) (parameter : Value) {v : Value}
    (hv : D.Allows w v) :
    Tracks a b w (Closure.bindParameter level₁ frame parameter v)
      (Closure.bindParameter level₂ frame parameter v) fun _ _ => True := by
  cases parameter with
  | symbol x => exact .define hframe x hv
  | _ => exact h.raise _

theorem bindEach {frame : TableId} (henv : D.env w env) (hframe : D.frame w frame)
    (parameters : List Value) {es : List Value} (hes : ∀ e ∈ es, D.Allows w e) :
    Tracks a b w (Closure.bindEach level₁ env frame parameters es)
      (Closure.bindEach level₂ env frame parameters es) fun _ _ => True := by
  induction parameters generalizing w es with
  | nil => exact .pure trivial
  | cons parameter parameters ih =>
    cases es with
    | nil => exact .pure trivial
    | cons e es =>
      obtain ⟨he, hes⟩ := List.forall_mem_cons.mp hes
      refine (h.evaluate henv he).bind fun w₁ v hle₁ hv => ?_
      refine (h.report _).bind fun w₂ _ hle₂ _ => ?_
      have hframe₂ := D.frame_mono (D.le_trans hle₁ hle₂) hframe
      refine (h.bindParameter hframe₂ parameter (hv.mono hle₂)).bind fun w₃ _ hle₃ _ => ?_
      have hle := D.le_trans (D.le_trans hle₁ hle₂) hle₃
      exact ih (D.env_mono hle henv) (D.frame_mono hle hframe) fun u hu => (hes u hu).mono hle

theorem bind {frame : TableId} (henv : D.env w env) (hframe : D.frame w frame)
    (formals : Value) {operands : Value} (ho : D.Allows w operands) :
    Tracks a b w (Closure.bind level₁ env frame formals operands)
      (Closure.bind level₂ env frame formals operands) fun _ _ => True := by
  cases hformals : formals.properItems with
  | ok parameters =>
    rw [Closure.bind_of_properItems hformals, Closure.bind_of_properItems hformals]
    refine (h.items ho).bind fun w₁ es hle hes => ?_
    split
    · exact h.bindEach (D.env_mono hle henv) (D.frame_mono hle hframe) parameters hes
    · exact h.raise _
  | error f =>
    cases formals with
    | symbol x =>
      refine (h.report _).bind fun w₁ _ hle _ => ?_
      exact .define (D.frame_mono hle hframe) x (ho.mono hle)
    | _ =>
      rw [Closure.bind_of_improper hformals (by simp), Closure.bind_of_improper hformals (by simp)]
      exact h.raise _

/-- A call of a closure whose captured table may come in front of the caller's environment. -/
theorem call {formals body operands : Value} {captured : TableId} (henv : D.env w env)
    (hcaptured : D.env w (env.push captured)) (hbody : D.Allows w body)
    (ho : D.Allows w operands) :
    Tracks a b w (Closure.run level₁ env formals body captured operands)
      (Closure.run level₂ env formals body captured operands) D.Allows := by
  refine Tracks.openScope.bind fun w₁ frame hle₁ hframe => ?_
  refine (h.bind (D.env_mono hle₁ henv) hframe formals (ho.mono hle₁)).bind
    fun w₂ _ hle₂ _ => ?_
  have hle₁₂ := D.le_trans hle₁ hle₂
  refine (h.items (hbody.mono hle₁₂)).bind fun w₃ es hle₃ hes => ?_
  have hinner := D.encloses (D.env_mono hle₁₂ hcaptured) (D.frame_mono hle₂ hframe)
  exact h.evaluateBody (D.env_mono hle₃ hinner) hes

/-! ## Forms -/

theorem operands {v : Value} (hv : D.Allows w v) :
    Tracks a b w (level₁.items v) (level₂.items v)
      fun w es => v.properItems = .ok es ∧ ∀ u ∈ es, D.Allows w u :=
  h.lift fun _ hitems => ⟨hitems, allows_of_mem_properItems hv hitems⟩

/-- A definition of a name that may be bound in the root. -/
theorem runDefine {operands : Value} (henv : D.env w env) (ho : D.Allows w operands)
    (hdefine : ∀ x e, operands.properItems = .ok [.symbol x, e] → D.definable x) :
    Tracks a b w (Form.runDefine level₁ env operands) (Form.runDefine level₂ env operands)
      D.Allows := by
  refine (h.operands ho).bind fun w₁ es hle₁ ⟨hitems, hes⟩ => ?_
  rcases es with _ | ⟨target, _ | ⟨e, _ | _⟩⟩
  · exact h.raise _
  · cases target <;> exact h.raise _
  · cases target with
    | symbol x =>
      have henv₁ := D.env_mono hle₁ henv
      refine (h.evaluate henv₁ (hes e (by simp))).bind fun w₂ v hle₂ hv => ?_
      have hx := hdefine x e hitems
      refine (Tracks.defineGlobal (D.env_mono hle₂ henv₁) hx hv).bind fun w₃ _ hle₃ _ => ?_
      exact .pure (hv.mono hle₃)
    | _ => exact h.raise _
  · cases target <;> exact h.raise _

/-- An assignment to a name whose nearest binding may be changed. -/
theorem runAssign {operands : Value} (henv : D.env w env) (ho : D.Allows w operands)
    (hassign : ∀ x e, operands.properItems = .ok [.symbol x, e] → D.assignable w env x) :
    Tracks a b w (Form.runAssign level₁ env operands) (Form.runAssign level₂ env operands)
      D.Allows := by
  refine (h.operands ho).bind fun w₁ es hle₁ ⟨hitems, hes⟩ => ?_
  rcases es with _ | ⟨target, _ | ⟨e, _ | _⟩⟩
  · exact h.raise _
  · cases target <;> exact h.raise _
  · cases target with
    | symbol x =>
      have henv₁ := D.env_mono hle₁ henv
      refine (h.evaluate henv₁ (hes e (by simp))).bind fun w₂ v hle₂ hv => ?_
      have hx := D.assignable_mono (D.le_trans hle₁ hle₂) (hassign x e hitems)
      refine (Tracks.assign (D.env_mono hle₂ henv₁) hx hv).bind fun w₃ _ hle₃ _ => ?_
      exact .pure (hv.mono hle₃)
    | _ => exact h.raise _
  · cases target <;> exact h.raise _

theorem condition {e : Value} (henv : D.env w env) (he : D.Allows w e) :
    Tracks a b w (Form.condition level₁ env e) (Form.condition level₂ env e)
      fun _ _ => True := by
  refine (h.evaluate henv he).bind fun w₁ v _ _ => ?_
  cases v with
  | boolean answer => exact .pure trivial
  | _ => exact h.raise _

theorem runBranch {operands : Value} (henv : D.env w env) (ho : D.Allows w operands) :
    Tracks a b w (Form.runBranch level₁ env operands) (Form.runBranch level₂ env operands)
      D.Allows := by
  refine (h.items ho).bind fun w₁ es hle₁ hes => ?_
  have henv₁ := D.env_mono hle₁ henv
  rcases es with _ | ⟨e, _ | ⟨consequent, _ | ⟨alternative, _ | _⟩⟩⟩
  · exact h.raise _
  · exact h.raise _
  · refine (h.condition henv₁ (hes e (by simp))).bind fun w₂ answer hle₂ _ => ?_
    split
    · exact h.evaluate (D.env_mono hle₂ henv₁) ((hes consequent (by simp)).mono hle₂)
    · exact .pure (allows_of_closures_eq_nil rfl)
  · refine (h.condition henv₁ (hes e (by simp))).bind fun w₂ answer hle₂ _ => ?_
    split
    · exact h.evaluate (D.env_mono hle₂ henv₁) ((hes consequent (by simp)).mono hle₂)
    · exact h.evaluate (D.env_mono hle₂ henv₁) ((hes alternative (by simp)).mono hle₂)
  · exact h.raise _

theorem runLambda {operands : Value} (henv : D.env w env) (ho : D.Allows w operands) :
    Tracks a b w (Form.runLambda level₁ env operands) (Form.runLambda level₂ env operands)
      D.Allows := by
  cases operands with
  | pair formals body =>
    obtain ⟨hf, hb⟩ := allows_pair.mp ho
    have hcheck : Tracks a b w (level₁.lift formals.checkFormals)
        (level₂.lift formals.checkFormals) fun _ _ => formals.checkFormals = .ok () :=
      h.lift fun _ hok => hok
    refine hcheck.bind fun w₁ _ hle₁ hformals => ?_
    have hitems : Tracks a b w₁ (level₁.items body) (level₂.items body)
        fun _ es => body.properItems = .ok es := h.lift fun _ hok => hok
    refine hitems.bind fun w₂ es hle₂ hbody => ?_
    have hle := D.le_trans hle₁ hle₂
    refine (Tracks.capture (D.env_mono hle henv) hformals hbody).bind
      fun w₃ captured hle₃ hclosure => ?_
    have hle := D.le_trans hle hle₃
    exact .pure (allows_closure.mpr ⟨hclosure, hf.mono hle, hb.mono hle⟩)
  | _ => exact h.raise _

theorem bindInitialisers {frame : TableId} (henv : D.env w env) (hframe : D.frame w frame)
    {entries : List Value} (hentries : ∀ entry ∈ entries, D.Allows w entry) :
    Tracks a b w (Form.bindInitialisers level₁ env frame entries)
      (Form.bindInitialisers level₂ env frame entries) fun _ _ => True := by
  induction entries generalizing w with
  | nil => exact .pure trivial
  | cons entry entries ih =>
    obtain ⟨hentry, hentries⟩ := List.forall_mem_cons.mp hentries
    refine (h.items hentry).bind fun w₁ es hle₁ hes => ?_
    rcases es with _ | ⟨name, _ | ⟨e, _ | _⟩⟩
    · exact h.raise _
    · cases name <;> exact h.raise _
    · cases name with
      | symbol x =>
        have henv₁ := D.env_mono hle₁ henv
        refine (h.evaluate henv₁ (hes e (by simp))).bind fun w₂ v hle₂ hv => ?_
        have hframe₂ := D.frame_mono (D.le_trans hle₁ hle₂) hframe
        refine (Tracks.define hframe₂ x hv).bind fun w₃ _ hle₃ _ => ?_
        have hle := D.le_trans (D.le_trans hle₁ hle₂) hle₃
        exact ih (D.env_mono hle henv) (D.frame_mono hle hframe)
          fun u hu => (hentries u hu).mono hle
      | _ => exact h.raise _
    · cases name <;> exact h.raise _

theorem runBinding {operands : Value} (henv : D.env w env) (ho : D.Allows w operands) :
    Tracks a b w (Form.runBinding level₁ env operands) (Form.runBinding level₂ env operands)
      D.Allows := by
  cases operands with
  | pair entries body =>
    obtain ⟨hentries, hbody⟩ := allows_pair.mp ho
    refine Tracks.openScope.bind fun w₁ frame hle₁ hframe => ?_
    refine (h.items (hentries.mono hle₁)).bind fun w₂ es hle₂ hes => ?_
    have hle₁₂ := D.le_trans hle₁ hle₂
    have hframe₂ := D.frame_mono hle₂ hframe
    refine (h.bindInitialisers (D.env_mono hle₁₂ henv) hframe₂ hes).bind fun w₃ _ hle₃ _ => ?_
    have hle := D.le_trans hle₁₂ hle₃
    refine (h.items (hbody.mono hle)).bind fun w₄ forms hle₄ hforms => ?_
    have hinner := D.encloses (D.env_mono hle henv) (D.frame_mono hle₃ hframe₂)
    exact h.evaluateBody (D.env_mono hle₄ hinner) hforms
  | _ => exact h.raise _

theorem tryClauses {clauses : List Value} (henv : D.env w env)
    (hclauses : ∀ clause ∈ clauses, D.Allows w clause) :
    Tracks a b w (Form.tryClauses level₁ env clauses) (Form.tryClauses level₂ env clauses)
      D.Allows := by
  induction clauses generalizing w with
  | nil => exact .pure (allows_of_closures_eq_nil rfl)
  | cons clause clauses ih =>
    obtain ⟨hclause, hclauses⟩ := List.forall_mem_cons.mp hclauses
    refine (h.items hclause).bind fun w₁ es hle₁ hes => ?_
    have henv₁ := D.env_mono hle₁ henv
    cases es with
    | nil => exact h.raise _
    | cons test body =>
      obtain ⟨htest, hbody⟩ := List.forall_mem_cons.mp hes
      refine (h.evaluate henv₁ htest).bind fun w₂ v hle₂ hv => ?_
      have henv₂ := D.env_mono hle₂ henv₁
      split
      · split
        · exact .pure hv
        · exact h.evaluateBody henv₂ fun u hu => (hbody u hu).mono hle₂
      · have hle := D.le_trans hle₁ hle₂
        exact ih henv₂ fun u hu => (hclauses u hu).mono hle

theorem runCond {operands : Value} (henv : D.env w env) (ho : D.Allows w operands) :
    Tracks a b w (Form.runCond level₁ env operands) (Form.runCond level₂ env operands)
      D.Allows :=
  (h.items ho).bind fun _ _ hle hes => h.tryClauses (D.env_mono hle henv) hes

theorem allTrue {last : Value} {es : List Value} (henv : D.env w env) (hlast : D.Allows w last)
    (hes : ∀ e ∈ es, D.Allows w e) :
    Tracks a b w (Form.allTrue level₁ env last es) (Form.allTrue level₂ env last es)
      D.Allows := by
  induction es generalizing w last with
  | nil => exact .pure hlast
  | cons e es ih =>
    obtain ⟨he, hes⟩ := List.forall_mem_cons.mp hes
    refine (h.evaluate henv he).bind fun w₁ v hle hv => ?_
    split
    · exact .pure hv
    · exact ih (D.env_mono hle henv) hv fun u hu => (hes u hu).mono hle

theorem runConjunction {operands : Value} (henv : D.env w env) (ho : D.Allows w operands) :
    Tracks a b w (Form.runConjunction level₁ env operands)
      (Form.runConjunction level₂ env operands) D.Allows :=
  (h.items ho).bind fun _ _ hle hes =>
    h.allTrue (D.env_mono hle henv) (allows_of_closures_eq_nil rfl) hes

theorem anyTrue {es : List Value} (henv : D.env w env) (hes : ∀ e ∈ es, D.Allows w e) :
    Tracks a b w (Form.anyTrue level₁ env es) (Form.anyTrue level₂ env es) D.Allows := by
  induction es generalizing w with
  | nil => exact .pure (allows_of_closures_eq_nil rfl)
  | cons e es ih =>
    obtain ⟨he, hes⟩ := List.forall_mem_cons.mp hes
    refine (h.evaluate henv he).bind fun w₁ v hle hv => ?_
    split
    · exact ih (D.env_mono hle henv) fun u hu => (hes u hu).mono hle
    · exact .pure hv

theorem runDisjunction {operands : Value} (henv : D.env w env) (ho : D.Allows w operands) :
    Tracks a b w (Form.runDisjunction level₁ env operands)
      (Form.runDisjunction level₂ env operands) D.Allows :=
  (h.items ho).bind fun _ _ hle hes => h.anyTrue (D.env_mono hle henv) hes

theorem runQuote {operands : Value} (ho : D.Allows w operands) :
    Tracks a b w (Form.runQuote level₁ operands) (Form.runQuote level₂ operands) D.Allows := by
  refine (h.items ho).bind fun w₁ es hle₁ hes => ?_
  rcases es with _ | ⟨e, _ | _⟩
  · exact h.raise _
  · exact .pure (hes e (by simp))
  · exact h.raise _

theorem runForm {operands : Value} (f : Form) (henv : D.env w env) (ho : D.Allows w operands)
    (hdefine : f = .define → ∀ x e, operands.properItems = .ok [.symbol x, e] → D.definable x)
    (hassign : f = .assign → ∀ x e, operands.properItems = .ok [.symbol x, e] →
      D.assignable w env x) :
    Tracks a b w (f.run level₁ env operands) (f.run level₂ env operands) D.Allows := by
  cases f with
  | define => exact h.runDefine henv ho (hdefine rfl)
  | branch => exact h.runBranch henv ho
  | lambda => exact h.runLambda henv ho
  | binding => exact h.runBinding henv ho
  | cond => exact h.runCond henv ho
  | conjunction => exact h.runConjunction henv ho
  | disjunction => exact h.runDisjunction henv ho
  | quote => exact h.runQuote ho
  | assign => exact h.runAssign henv ho (hassign rfl)

/-! ## Natives -/

omit h in
theorem allows_compute {depth : Nat} {p : Native} {args : List Value} {v : Value}
    (hv : p.compute depth args = .ok v) (hargs : ∀ u ∈ args, D.Allows w u) : D.Allows w v := by
  have hsub := Native.yields_compute depth p args
  rw [hv] at hsub
  intro formals body captured hmem
  obtain ⟨u, hu, hmem⟩ := List.mem_flatMap.mp (hsub hmem)
  exact hargs u hu formals body captured hmem

theorem runNative {operands : Value} (p : Native) (henv : D.env w env)
    (ho : D.Allows w operands) :
    Tracks a b w (p.run level₁ env operands) (p.run level₂ env operands) D.Allows := by
  refine (h.items ho).bind fun w₁ es hle₁ hes => ?_
  refine (h.evaluateAll (D.env_mono hle₁ henv) hes).bind fun w₂ args hle₂ hargs => ?_
  have hcompute : Tracks a b w₂ (level₁.lift (p.compute level₁.depth args))
      (level₂.lift (p.compute level₂.depth args)) D.Allows := by
    rw [h.depth]
    exact h.lift fun v hv => allows_compute hv hargs
  split
  · next f rest =>
    have henv₂ := D.env_mono (D.le_trans hle₁ hle₂) henv
    exact h.apply henv₂ (hargs f (by simp)) (hargs rest (by simp))
  · exact hcompute

/-! ## One step -/

/-- One rule of evaluation, but for calls of closures and for definitions and assignments of other
names. -/
theorem step {v operands : Value} (henv : D.env w env) (hv : D.Allows w v)
    (ho : D.Allows w operands)
    (hdefine : ∀ installation, v = .form .define installation →
      ∀ x e, operands.properItems = .ok [.symbol x, e] → D.definable x)
    (hassign : ∀ installation, v = .form .assign installation →
      ∀ x e, operands.properItems = .ok [.symbol x, e] → D.assignable w env x)
    (hcall : ∀ formals body captured, v ≠ .closure formals body captured) :
    Tracks a b w (MiniScheme.step level₁ env v operands) (MiniScheme.step level₂ env v operands)
      D.Allows := by
  cases v with
  | nil | integer | boolean | string | elseMarker => exact .pure hv
  | symbol x => exact .lookup env x
  | quoted e => exact .pure hv
  | pair left right =>
    obtain ⟨hleft, hright⟩ := allows_pair.mp hv
    refine (h.report _).bind fun w₁ _ hle₁ _ => ?_
    have henv₁ := D.env_mono hle₁ henv
    dsimp only
    split
    · refine (Tracks.pure (hleft.mono hle₁)).bind fun w₂ f hle₂ hf => ?_
      exact h.apply (D.env_mono hle₂ henv₁) hf (hright.mono (D.le_trans hle₁ hle₂))
    · refine (h.evaluate henv₁ (hleft.mono hle₁)).bind fun w₂ f hle₂ hf => ?_
      exact h.apply (D.env_mono hle₂ henv₁) hf (hright.mono (D.le_trans hle₁ hle₂))
  | form f installation =>
    refine h.runForm f henv ho (fun hf => ?_) fun hf => ?_
    · exact hdefine installation (hf ▸ rfl)
    · exact hassign installation (hf ▸ rfl)
  | native p installation => exact h.runNative p henv ho
  | closure formals body captured => exact (hcall formals body captured rfl).elim

end Matched

/-! ## Evaluation -/

theorem Ends.inspect {w : D.World} {r : EStateM.Result Fault EvalState Value}
    (h : Ends D.Allows w r) : Ends D.Allows w (b.inspect r) := by
  cases h with
  | error hle hs => exact .error hle hs
  | ok hle hs hv =>
    unfold Alarm.inspect
    dsimp only
    split
    · exact .error hle hs
    · exact .ok hle hs hv

theorem Follows.inspect {w : D.World} {r₁ r₂ : EStateM.Result Fault EvalState Value}
    (h : Follows a b D.Allows w r₁ r₂) (hweaker : ∀ m, b.picks m = true → a.picks m = true) :
    Follows a b D.Allows w (a.inspect r₁) (b.inspect r₂) := by
  cases h with
  | stopped hpick hstore hle hs hm hb hr =>
    refine .stopped hpick hstore hle hs hm (fun hring => ?_) hr.inspect
    rw [hb hring]
    rfl
  | same h =>
    cases h with
    | error hle hs => exact .same (.error hle hs)
    | @ok w' v s hle hs hv =>
      unfold Alarm.inspect
      dsimp only
      cases ha : a.picks (.result v s.store) with
      | true =>
        refine .stopped ha rfl hle hs hv (fun hb => if_pos hb) ?_
        split
        · exact .error (D.le_refl w') hs
        · exact .ok (D.le_refl w') hs hv
      | false =>
        have hb : b.picks (.result v s.store) = false := by
          by_cases hb : b.picks (.result v s.store) = true
          · rw [hweaker _ hb] at ha
            cases ha
          · simpa using hb
        rw [hb]
        exact .same (.ok hle hs hv)

/-- Calls of closures over two levels keep the discipline, at least where the second alarm lets them
pass. -/
def Calls (D : Discipline) (a b : Alarm) (level₁ level₂ : Level) : Prop :=
  ∀ {w : D.World} {env : Env} {formals body operands : Value} {captured : TableId}
    {s : EvalState}, D.env w env → D.Allows w (.closure formals body captured) →
    D.Allows w operands → D.Keeps w s.store →
    b.picks (.entry env (.closure formals body captured) operands s.store) = false →
    Follows a b D.Allows w (Closure.run level₁ env formals body captured operands s)
      (Closure.run level₂ env formals body captured operands s)

/-- Where every captured table may come in front of every environment, calls keep the discipline. -/
theorem Matched.calls {level₁ level₂ : Level} (h : D.Matched a b level₁ level₂)
    (hpush : ∀ {w env formals body captured}, D.env w env → D.closure w formals body captured →
      D.env w (env.push captured)) : D.Calls a b level₁ level₂ := by
  intro w env formals body operands captured s henv hclosure ho hs _
  obtain ⟨hclosure, -, hbody⟩ := allows_closure.mp hclosure
  exact h.call henv (hpush henv hclosure) hbody ho s hs

def Defines (D : Discipline) (b : Alarm) : Prop :=
  ∀ {w : D.World} {env : Env} {installation : Nat} {operands e : Value} {x : String}
    {store : Store}, D.env w env →
    b.picks (.entry env (.form .define installation) operands store) = false →
    operands.properItems = .ok [.symbol x, e] → D.definable x

def Assigns (D : Discipline) (b : Alarm) : Prop :=
  ∀ {w : D.World} {env : Env} {installation : Nat} {operands e : Value} {x : String}
    {store : Store}, D.store w store → D.env w env →
    b.picks (.entry env (.form .assign installation) operands store) = false →
    operands.properItems = .ok [.symbol x, e] → D.assignable w env x

theorem matched_zero (traced : Bool) :
    D.Matched a b (.watched a traced 0) (.watched b traced 0) :=
  ⟨rfl, rfl, fun _ _ _ => .throw _⟩

/-- Evaluation that is one level deeper keeps the discipline, too. -/
theorem Matched.succ {traced : Bool} {depth : Nat}
    (h : D.Matched a b (.watched a traced depth) (.watched b traced depth))
    (hweaker : ∀ m, b.picks m = true → a.picks m = true)
    (hdefines : D.Defines b) (hassigns : D.Assigns b)
    (hcalls : D.Calls a b (.watched a traced depth) (.watched b traced depth)) :
    D.Matched a b (.watched a traced (depth + 1)) (.watched b traced (depth + 1)) := by
  refine ⟨rfl, rfl, fun {w env v operands} henv hv ho s hs => ?_⟩
  change Follows a b D.Allows w (watch a traced (depth + 1) env v operands s)
    (watch b traced (depth + 1) env v operands s)
  have hentry : D.Admits w (.entry env v operands s.store) := ⟨henv, hv, ho⟩
  rw [watch_succ, watch_succ]
  cases hb : b.picks (.entry env v operands s.store) with
  | true =>
    rw [if_pos (hweaker _ hb)]
    exact .stopped (hweaker _ hb) rfl (D.le_refl w) hs hentry (fun _ => rfl)
      (.error (D.le_refl w) hs)
  | false =>
    have hstep : Follows a b D.Allows w (MiniScheme.step (.watched a traced depth) env v operands s)
        (MiniScheme.step (.watched b traced depth) env v operands s) := by
      cases v with
      | closure formals body captured => exact hcalls henv hv ho hs hb
      | form f installation =>
        refine h.step henv hv ho (fun _ hf x e hitems => ?_) (fun _ hf x e hitems => ?_) (by simp)
          s hs
        · obtain ⟨rfl, -⟩ := Value.form.inj hf
          exact hdefines henv hb hitems
        · obtain ⟨rfl, -⟩ := Value.form.inj hf
          exact hassigns hs.store henv hb hitems
      | _ => exact h.step henv hv ho (by simp) (by simp) (by simp) s hs
    cases ha : a.picks (.entry env v operands s.store) with
    | true => exact .stopped ha rfl (D.le_refl w) hs hentry (by simp [hb]) hstep.ends.inspect
    | false => exact hstep.inspect hweaker

/-- Evaluation keeps the discipline if the definitions, the assignments and the calls of closures
do. -/
theorem matched (hweaker : ∀ m, b.picks m = true → a.picks m = true) (hdefines : D.Defines b)
    (hassigns : D.Assigns b)
    (hcalls : ∀ {level₁ level₂}, D.Matched a b level₁ level₂ → D.Calls a b level₁ level₂)
    (traced : Bool) (depth : Nat) :
    D.Matched a b (.watched a traced depth) (.watched b traced depth) := by
  induction depth with
  | zero => exact matched_zero traced
  | succ depth ih => exact ih.succ hweaker hdefines hassigns (hcalls ih)

theorem Matched.evaluateForms {level₁ level₂ : Level} (h : D.Matched a b level₁ level₂)
    {w : D.World} {env : Env} {last : Value} {es : List Value} (henv : D.env w env)
    (hlast : D.Allows w last) (hes : ∀ e ∈ es, D.Allows w e) :
    Tracks a b w (Session.evaluateForms level₁ env last es)
      (Session.evaluateForms level₂ env last es) D.Allows := by
  induction es generalizing w last with
  | nil => exact .pure hlast
  | cons e es ih =>
    obtain ⟨he, hes⟩ := List.forall_mem_cons.mp hes
    refine (h.report _).bind fun w₁ _ hle₁ _ => ?_
    refine (h.evaluate (D.env_mono hle₁ henv) (he.mono hle₁)).bind fun w₂ v hle₂ hv => ?_
    refine (h.report _).bind fun w₃ _ hle₃ _ => ?_
    have hle := D.le_trans (D.le_trans hle₁ hle₂) hle₃
    exact ih (D.env_mono hle henv) (hv.mono hle₃) fun u hu => (hes u hu).mono hle

end Discipline

end MiniScheme
