import MiniScheme.Proofs.Eval.Snapshot

/-!
# Quiet closures

An expression is quiet if it only looks names up and calls natives and branches, the names of which
are taken from a captured table. Its evaluation changes nothing. A closure whose body is quiet may
therefore be called by anyone without any harm to what it has captured.

## Main definitions

* `Still`: a computation leaves the store as it is.
* `Quiet`: expressions that change nothing.
* `Snapshot.IsQuiet`: closures with such a body.

## Main statements

* `Quiet.still`: evaluating a quiet expression leaves the store as it is.
* `Snapshot.matched_of_isQuiet`: what quiet closures have captured is left as it is.
-/

namespace MiniScheme

/-! ## Computations that change nothing -/

/-- A computation that leaves a store as it is, with a good answer if it has one. -/
def Still {α : Type} (store : Store) (x : EvalM α) (good : α → Prop) : Prop :=
  ∀ s : EvalState, s.store = store →
    (finalState (x s)).store = store ∧ ∀ v s', x s = .ok v s' → good v

namespace Still

variable {α β : Type} {store : Store} {good : α → Prop} {good' : β → Prop}

theorem pure {v : α} (h : good v) : Still store (pure v) good := by
  rintro s hs
  refine ⟨hs, ?_⟩
  rintro u s' ⟨⟩
  exact h

theorem throw (f : Fault) : Still store (throw f : EvalM α) good := by
  intro s hs
  refine ⟨hs, ?_⟩
  rintro u s' ⟨⟩

theorem bind {x : EvalM α} {k : α → EvalM β} (h : Still store x good)
    (hk : ∀ v, good v → Still store (k v) good') : Still store (x >>= k) good' := by
  intro s hs
  have hx := h s hs
  simp only [Bind.bind, EStateM.bind]
  generalize x s = r at hx
  obtain ⟨hstore, hgood⟩ := hx
  cases r with
  | ok v s' => exact hk v (hgood v s' rfl) s' hstore
  | error f s' =>
    refine ⟨hstore, ?_⟩
    rintro u s'' ⟨⟩

theorem raise (level : Level) (f : Fault) : Still store (level.raise f : EvalM α) good := throw _

theorem lift (level : Level) {r : Except Fault α} (h : ∀ v, r = .ok v → good v) :
    Still store (level.lift r) good := by
  cases r with
  | ok v => exact pure (h v rfl)
  | error f => exact throw _

theorem report (level : Level) (e : Event) :
    Still store (level.report e) fun _ => True := by
  unfold Level.report
  split
  · split
    · exact throw _
    · exact fun s hs => ⟨hs, fun _ _ _ => trivial⟩
  · exact pure trivial

theorem lookup {env : Env} {x : String} {good : Value → Prop}
    (h : ∀ v, store.get? env x = some v → good v) : Still store (EvalM.lookup env x) good := by
  rintro s rfl
  rw [EvalM.lookup_eq]
  cases hget : s.store.get? env x with
  | none => exact ⟨rfl, by rintro v s' ⟨⟩⟩
  | some v =>
    refine ⟨rfl, ?_⟩
    rintro u s' ⟨⟩
    exact h v hget

theorem evaluateAll {level : Level} {env : Env} {good : Value → Prop} {es : List Value}
    (h : ∀ e ∈ es, Still store (level.evaluate env e) good) :
    Still store (level.evaluateAll env es) fun vs => ∀ v ∈ vs, good v := by
  induction es with
  | nil => exact pure (by simp)
  | cons e es ih =>
    obtain ⟨he, hes⟩ := List.forall_mem_cons.mp h
    refine he.bind fun v hv => (ih hes).bind fun vs hvs => ?_
    exact pure (List.forall_mem_cons.mpr ⟨hv, hvs⟩)

theorem evaluateBody {level : Level} {env : Env} {good : Value → Prop} {es : List Value}
    (h : ∀ e ∈ es, Still store (level.evaluate env e) good) (hnil : good .nil) :
    Still store (level.evaluateBody env es) good := by
  induction es with
  | nil => exact pure hnil
  | cons e es ih =>
    obtain ⟨he, hes⟩ := List.forall_mem_cons.mp h
    cases es with
    | nil => exact he
    | cons e' es => exact he.bind fun _ _ => ih hes

theorem ends {D : Discipline} {w : D.World} {x : EvalM α} {good : D.World → α → Prop}
    {s : EvalState} (h : Still store x (good w)) (hs : D.Keeps w store) (heq : s.store = store) :
    Discipline.Ends good w (x s) := by
  obtain ⟨hstore, hgood⟩ := h s heq
  cases hx : x s with
  | ok v s' =>
    rw [hx] at hstore
    exact .ok (D.le_refl w) (hstore ▸ hs) (hgood v s' hx)
  | error f s' =>
    rw [hx] at hstore
    exact .error (D.le_refl w) (hstore ▸ hs)

/-- An alarm may end a computation that changes nothing, but it changes nothing either. -/
theorem watch {alarm : Alarm} {traced : Bool} {depth : Nat} {env : Env} {v operands : Value}
    {good : Value → Prop}
    (h : Still store (step (.watched alarm traced depth) env v operands) good) :
    Still store (watch alarm traced (depth + 1) env v operands) good := by
  intro s hs
  rw [watch_succ]
  split
  · exact ⟨hs, by rintro u s' ⟨⟩⟩
  · have hstep := h s hs
    generalize step (.watched alarm traced depth) env v operands s = r at hstep
    obtain ⟨hstore, hgood⟩ := hstep
    cases r with
    | error f s' => exact ⟨hstore, by rintro u s'' ⟨⟩⟩
    | ok u s' =>
      unfold Alarm.inspect
      dsimp only
      split
      · exact ⟨hstore, by rintro u s'' ⟨⟩⟩
      · refine ⟨hstore, ?_⟩
        rintro u' s'' ⟨⟩
        exact hgood u s' rfl

end Still

/-! ## Quiet expressions -/

/-- Expressions that look names up, and call natives and branches whose names are bound in a
captured table and not among the parameters. -/
inductive Quiet (table : Table) (bound : List String) : Value → Prop where
  | symbol (x : String) : Quiet table bound (.symbol x)
  | integer (n : Int) : Quiet table bound (.integer n)
  | native {x : String} {p : Native} {installation : Nat} {operands : Value} {es : List Value}
      (hx : x ∉ bound) (hget : table.get? x = some (.native p installation)) (hp : p ≠ .apply)
      (hitems : operands.properItems = .ok es) (hes : ∀ e ∈ es, Quiet table bound e) :
      Quiet table bound (.pair (.symbol x) operands)
  | branch {x : String} {installation : Nat} {operands : Value} {es : List Value}
      (hx : x ∉ bound) (hget : table.get? x = some (.form .branch installation))
      (hitems : operands.properItems = .ok es) (hes : ∀ e ∈ es, Quiet table bound e) :
      Quiet table bound (.pair (.symbol x) operands)

section Body

variable {D : Discipline} {w : D.World} {store : Store} {table : Table} {bound : List String}
  {caller : Env} {place frame : TableId}

/-- In the body of a call, a name that is not a parameter means what the captured table says. -/
theorem get?_body {x : String} {v : Value} (htable : store.table place = table)
    (hframe : ∀ y ∈ (store.table frame).names, y ∈ bound) (hx : x ∉ bound)
    (hget : table.get? x = some v) :
    store.get? ((caller.push place).push frame) x = some v := by
  have hnone : (store.table frame).get? x = none := by
    cases hlocal : (store.table frame).get? x with
    | none => rfl
    | some u => exact absurd (hframe x (Table.mem_names_of_get? hlocal)) hx
  rw [Store.get?_push, Store.get?_push, hnone, htable, hget]
  rfl

/-- A call by name changes nothing if the procedure that the captured table has for the name does
not. -/
theorem still_call {x : String} {v operands : Value} {good : Value → Prop}
    (htable : store.table place = table) (hframe : ∀ y ∈ (store.table frame).names, y ∈ bound)
    (hx : x ∉ bound) (hget : table.get? x = some v) (hv : v.isProcedure = true) {alarm : Alarm}
    {traced : Bool} (hrun : ∀ depth, Still store (step (.watched alarm traced depth)
      ((caller.push place).push frame) v operands) good) (depth : Nat) :
    Still store (MiniScheme.watch alarm traced depth ((caller.push place).push frame)
      (.pair (.symbol x) operands) .nil) good := by
  have hoperator (depth : Nat) : Still store (MiniScheme.watch alarm traced depth
      ((caller.push place).push frame) (.symbol x) .nil) (· = v) := by
    cases depth with
    | zero => exact .throw _
    | succ depth =>
      refine .watch (.lookup fun u hu => ?_)
      rw [get?_body htable hframe hx hget] at hu
      exact (Option.some.inj hu).symm
  cases depth with
  | zero => exact .throw _
  | succ depth =>
    refine .watch ((Still.report _ _).bind fun _ _ => ?_)
    refine (hoperator depth).bind fun f hf => ?_
    subst hf
    change Still store (Level.apply (.watched alarm traced depth) _ f operands) good
    unfold Level.apply
    rw [if_pos hv]
    cases depth with
    | zero => exact .throw _
    | succ depth => exact .watch (hrun depth)

theorem Still.items {level : Level} {operands : Value} {es : List Value}
    (h : operands.properItems = .ok es) : Still store (level.items operands) (· = es) := by
  refine .lift level fun vs hvs => ?_
  rw [h] at hvs
  exact (Except.ok.inj hvs).symm

theorem Still.condition {level : Level} {env : Env} {e : Value} {good : Value → Prop}
    (h : Still store (level.evaluate env e) good) :
    Still store (Form.condition level env e) fun _ => True := by
  refine h.bind fun v _ => ?_
  cases v with
  | boolean answer => exact .pure trivial
  | _ => exact .raise level _

theorem Still.runBranch {level : Level} {env : Env} {operands : Value} {es : List Value}
    {good : Value → Prop} (hitems : operands.properItems = .ok es)
    (h : ∀ e ∈ es, Still store (level.evaluate env e) good) (hnil : good .nil) :
    Still store (Form.runBranch level env operands) good := by
  refine (Still.items hitems).bind fun vs hvs => ?_
  subst hvs
  rcases vs with _ | ⟨e, _ | ⟨consequent, _ | ⟨alternative, _ | _⟩⟩⟩
  · exact .raise level _
  · exact .raise level _
  · refine (h e (by simp)).condition.bind fun answer _ => ?_
    split
    · exact h consequent (by simp)
    · exact .pure hnil
  · refine (h e (by simp)).condition.bind fun answer _ => ?_
    split
    · exact h consequent (by simp)
    · exact h alternative (by simp)
  · exact .raise level _

/-- The evaluation of a quiet expression in the body of a call changes nothing. -/
theorem Quiet.still {e : Value} (h : Quiet table bound e) (hs : D.Keeps w store)
    (htable : store.table place = table) (hframe : ∀ y ∈ (store.table frame).names, y ∈ bound)
    (alarm : Alarm) (traced : Bool) (depth : Nat) :
    Still store (MiniScheme.watch alarm traced depth ((caller.push place).push frame) e .nil)
      (D.Allows w) := by
  induction h generalizing depth with
  | symbol x =>
    cases depth with
    | zero => exact .throw _
    | succ depth => exact .watch (.lookup fun v hv => hs.allows_get? hv)
  | integer n =>
    cases depth with
    | zero => exact .throw _
    | succ depth => exact .watch (.pure (Discipline.allows_of_closures_eq_nil rfl))
  | @native x p installation operands es hx hget hp hitems hes ih =>
    refine still_call htable hframe hx hget rfl (fun depth => ?_) depth
    refine (Still.items hitems).bind fun vs hvs => ?_
    subst hvs
    refine (Still.evaluateAll fun e he => ih e he depth).bind fun args hargs => ?_
    split
    · exact absurd rfl hp
    · exact .lift _ fun v hv => Discipline.Matched.allows_compute hv hargs
  | @branch x installation operands es hx hget hitems hes ih =>
    refine still_call htable hframe hx hget rfl (fun depth => ?_) depth
    exact .runBranch hitems (fun e he => ih e he depth) (Discipline.allows_of_closures_eq_nil rfl)

end Body

/-! ## Quiet closures -/

/-- The outcome of two computations, one after the other. -/
theorem EvalM.bind_cases {α β : Type} {x : EvalM α} {k : α → EvalM β} {s : EvalState}
    (P : EStateM.Result Fault EvalState β → Prop)
    (herror : ∀ f s', x s = .error f s' → P (.error f s'))
    (hok : ∀ v s', x s = .ok v s' → P (k v s')) : P ((x >>= k) s) := by
  simp only [Bind.bind, EStateM.bind]
  cases hx : x s with
  | ok v s' => exact hok v s' hx
  | error f s' => exact herror f s' hx

/-- A call fills a scope at the next place and evaluates the body of the closure. -/
theorem Closure.run_eq (level : Level) (caller : Env) (formals body : Value) (captured : TableId)
    (operands : Value) (s : EvalState) :
    Closure.run level caller formals body captured operands s =
      (do
        Closure.bind level caller s.store.tables.size formals operands
        level.evaluateBody ((caller.push captured).push s.store.tables.size)
          (← level.items body) : EvalM Value)
        { s with store := (s.store.allocate .empty).2 } := rfl

def Value.parameterNames : Value → List String
  | symbol x => [x]
  | pair (symbol x) rest => x :: rest.parameterNames
  | pair _ rest => rest.parameterNames
  | _ => []

theorem Value.mem_parameterNames {formals : Value} {parameters : List Value} {x : String}
    (h : formals.properItems = .ok parameters) (hx : .symbol x ∈ parameters) :
    x ∈ formals.parameterNames := by
  rw [chain_of_properItems h]
  clear h
  induction parameters with
  | nil => cases hx
  | cons parameter parameters ih =>
    rcases List.mem_cons.mp hx with rfl | hrest
    · exact List.mem_cons_self
    · cases parameter with
      | symbol y => exact List.mem_cons_of_mem _ (ih hrest)
      | _ => exact ih hrest

namespace Snapshot

def IsQuiet (k : Snapshot) : Prop :=
  ∀ es, k.body.properItems = .ok es → ∀ e ∈ es, Quiet k.table k.formals.parameterNames e

/-- A fresh scope, the contents of which are kept while operands are evaluated. No closure has
captured it, so any closure will do. -/
def scope (frame : TableId) (t : Table) : Snapshot := ⟨.nil, .nil, frame, t⟩

theorem isQuiet_scope (frame : TableId) (t : Table) : (scope frame t).IsQuiet := by
  intro es hes
  obtain rfl : [] = es := Except.ok.inj hes
  simp

variable {kept : List Snapshot} {frame : TableId} {t t' : Table} {n : Nat}

theorem allows_scope {v : Value} (h : (discipline (scope frame t :: kept)).Allows n v) :
    (discipline (scope frame t' :: kept)).Allows n v := by
  intro formals body captured hmem
  obtain ⟨hlt, hkept⟩ := h formals body captured hmem
  exact ⟨hlt, List.forall_mem_cons.mpr ⟨hkept (scope frame t) List.mem_cons_self,
    fun k hk => hkept k (List.mem_cons_of_mem _ hk)⟩⟩

theorem allows_open {v : Value} (h : (discipline kept).Allows n v) (hframe : n ≤ frame) :
    (discipline (scope frame t :: kept)).Allows n v := by
  intro formals body captured hmem
  obtain ⟨hlt, hkept⟩ := h formals body captured hmem
  refine ⟨hlt, List.forall_mem_cons.mpr ⟨fun heq => ?_, hkept⟩⟩
  exact absurd heq (Nat.ne_of_lt (Nat.lt_of_lt_of_le hlt hframe))

theorem env_scope_table {e : Env} (h : (discipline (scope frame t :: kept)).env n e) :
    (discipline (scope frame t' :: kept)).env n e := by
  intro id hid
  obtain ⟨hlt, hne⟩ := h id hid
  exact ⟨hlt, List.forall_mem_cons.mpr ⟨hne (scope frame t) List.mem_cons_self,
    fun k hk => hne k (List.mem_cons_of_mem _ hk)⟩⟩

theorem env_open {e : Env} (h : (discipline kept).env n e) (hframe : n ≤ frame) :
    (discipline (scope frame t :: kept)).env n e := by
  intro id hid
  refine ⟨(h id hid).1, List.forall_mem_cons.mpr ⟨?_, (h id hid).2⟩⟩
  exact Nat.ne_of_lt (Nat.lt_of_lt_of_le (h id hid).1 hframe)

theorem keeps_open {s : Store} (h : (discipline kept).Keeps n s) :
    (discipline (scope s.tables.size .empty :: kept)).Keeps n (s.allocate .empty).2 := by
  have hkept := h.store.allocate .empty
  refine ⟨⟨Nat.le_trans h.store.1 (by simp), List.forall_mem_cons.mpr ⟨?_, hkept.2⟩⟩, ?_⟩
  · refine ⟨hkept.1, ?_⟩
    exact (Store.table_allocate s .empty _).trans (if_pos rfl)
  · intro id x v hget formals body captured hmem
    rw [Store.table_allocate] at hget
    split at hget
    · cases hget
    · exact allows_open (h.values hget) h.store.1 formals body captured hmem

theorem keeps_fill {s : Store} (h : (discipline (scope frame t :: kept)).Keeps n s)
    (hne : ∀ k ∈ kept, k.place ≠ frame) (x : String) {v : Value}
    (hv : (discipline (scope frame t :: kept)).Allows n v) :
    (discipline (scope frame (t.insert x v) :: kept)).Keeps n (s.define frame x v) := by
  obtain ⟨hlt, htable⟩ := h.store.2 (scope frame t) List.mem_cons_self
  refine ⟨⟨?_, List.forall_mem_cons.mpr ⟨⟨?_, ?_⟩, fun k hk => ?_⟩⟩, fun hget => ?_⟩
  · rw [Store.size_define]
    exact h.store.1
  · rw [Store.size_define]
    exact hlt
  · change (s.define frame x v).table frame = t.insert x v
    rw [Store.table_define s frame x v hlt, if_pos rfl]
    exact congrArg (·.insert x v) htable
  · rw [Store.size_define, Store.table_define_of_ne (hne k hk)]
    exact h.store.2 k (List.mem_cons_of_mem _ hk)
  · rcases Store.get?_table_define hget with rfl | hold
    · exact allows_scope hv
    · exact allows_scope (h.values hold)

theorem keeps_close {s : Store} (h : (discipline (scope frame t :: kept)).Keeps n s) :
    (discipline kept).Keeps n s := by
  refine ⟨⟨h.store.1, fun k hk => h.store.2 k (List.mem_cons_of_mem _ hk)⟩, ?_⟩
  intro id x v hget formals body captured hmem
  obtain ⟨hlt, hclosure⟩ := h.values hget formals body captured hmem
  exact ⟨hlt, fun k hk => hclosure k (List.mem_cons_of_mem _ hk)⟩

/-- A scope that has been filled with some of the given names, or not to the end. -/
def Fills (kept : List Snapshot) (frame : TableId) (bound : List String) (n : Nat)
    (r : EStateM.Result Fault EvalState Unit) : Prop :=
  ∃ n' t, n ≤ n' ∧ (discipline (scope frame t :: kept)).Keeps n' (finalState r).store ∧
    ∀ y ∈ t.names, y ∈ bound

section Call

variable {alarm : Alarm} {level : Level} {caller : Env} {bound : List String}
  (h : ∀ t, (discipline (scope frame t :: kept)).Matched alarm alarm level level)
  (hne : ∀ k ∈ kept, k.place ≠ frame)
include h hne

theorem fills_bindEach {s : EvalState} {parameters es : List Value}
    (hs : (discipline (scope frame t :: kept)).Keeps n s.store)
    (henv : (discipline (scope frame t :: kept)).env n caller)
    (hes : ∀ e ∈ es, (discipline (scope frame t :: kept)).Allows n e)
    (hbound : ∀ y ∈ t.names, y ∈ bound)
    (hparameters : ∀ x, .symbol x ∈ parameters → x ∈ bound) :
    Fills kept frame bound n (Closure.bindEach level caller frame parameters es s) := by
  -- on the parameters; the table is general, since each one is bound before the next is evaluated
  induction parameters generalizing s es t n with
  | nil => exact ⟨n, t, Nat.le_refl n, hs, hbound⟩
  | cons parameter parameters ih =>
    cases es with
    | nil => exact ⟨n, t, Nat.le_refl n, hs, hbound⟩
    | cons e es =>
      obtain ⟨he, hes⟩ := List.forall_mem_cons.mp hes
      obtain ⟨n₁, hle, hkeeps, hanswer⟩ := ((h t).evaluate henv he s hs).ends.final
      refine EvalM.bind_cases (Fills kept frame bound n) (fun f s₁ heval => ?_)
        (fun v s₁ heval => ?_)
      · rw [heval] at hkeeps
        exact ⟨n₁, t, hle, hkeeps, hbound⟩
      rw [heval] at hkeeps
      have hv := hanswer v s₁ heval
      have hreport := (Still.report level (.binding parameter v) s₁ rfl).1
      refine EvalM.bind_cases (Fills kept frame bound n) (fun f s₂ hr => ?_) (fun _ s₂ hr => ?_)
      · rw [hr] at hreport
        exact ⟨n₁, t, hle, hreport ▸ hkeeps, hbound⟩
      rw [hr] at hreport
      have hkeeps₂ : (discipline (scope frame t :: kept)).Keeps n₁ s₂.store := hreport ▸ hkeeps
      cases parameter with
      | symbol x =>
        have hbound₂ : ∀ y ∈ (t.insert x v).names, y ∈ bound := by
          intro y hy
          rcases Table.mem_names_insert hy with hy | rfl
          · exact hbound y hy
          · exact hparameters y List.mem_cons_self
        have hrest : Fills kept frame bound n₁ (Closure.bindEach level caller frame parameters es
            { s₂ with store := s₂.store.define frame x v }) :=
          ih (keeps_fill hkeeps₂ hne x hv) (env_scope_table (Discipline.env_mono _ hle henv))
            (fun u hu => allows_scope ((hes u hu).mono hle)) hbound₂
            (fun y hy => hparameters y (List.mem_cons_of_mem _ hy))
        obtain ⟨n₂, t₂, hle₂, hfilled⟩ := hrest
        exact ⟨n₂, t₂, Nat.le_trans hle hle₂, hfilled⟩
      | _ => exact ⟨n₁, t, hle, hkeeps₂, hbound⟩

theorem fills_bind {s : EvalState} {formals operands : Value}
    (hs : (discipline (scope frame .empty :: kept)).Keeps n s.store)
    (henv : (discipline (scope frame .empty :: kept)).env n caller)
    (ho : (discipline (scope frame .empty :: kept)).Allows n operands) :
    Fills kept frame formals.parameterNames n
      (Closure.bind level caller frame formals operands s) := by
  have hempty : ∀ y ∈ Table.empty.names, y ∈ formals.parameterNames := by
    intro y hy
    cases hy
  -- nothing is bound before both chains are known to be proper and of one length
  have hchain : Fills kept frame formals.parameterNames n
      ((do
        let parameters ← level.items formals
        let es ← level.items operands
        if parameters.length = es.length then Closure.bindEach level caller frame parameters es
        else level.raise (.operandCount parameters.length es.length)) s) := by
    unfold Level.items
    cases hformals : formals.properItems with
    | error f => exact ⟨n, .empty, Nat.le_refl n, hs, hempty⟩
    | ok parameters =>
      cases hoperands : operands.properItems with
      | error f => exact ⟨n, .empty, Nat.le_refl n, hs, hempty⟩
      | ok es =>
        change Fills kept frame formals.parameterNames n ((if parameters.length = es.length then
          Closure.bindEach level caller frame parameters es
          else level.raise (.operandCount parameters.length es.length)) s)
        split
        · exact fills_bindEach h hne hs henv
            (Discipline.allows_of_mem_properItems ho hoperands) hempty
            (fun x hx => Value.mem_parameterNames hformals hx)
        · exact ⟨n, .empty, Nat.le_refl n, hs, hempty⟩
  cases formals with
  | symbol x =>
    have hreport := (Still.report level (.bindingOperands x operands) s rfl).1
    refine EvalM.bind_cases (Fills kept frame [x] n) (fun f s₁ hr => ?_) (fun _ s₁ hr => ?_)
    · rw [hr] at hreport
      exact ⟨n, .empty, Nat.le_refl n, hreport ▸ hs, hempty⟩
    · rw [hr] at hreport
      have hs₁ : (discipline (scope frame .empty :: kept)).Keeps n s₁.store := hreport ▸ hs
      refine ⟨n, Table.empty.insert x operands, Nat.le_refl n, keeps_fill hs₁ hne x ho, ?_⟩
      intro y hy
      rcases Table.mem_names_insert hy with hy | rfl
      · cases hy
      · exact List.mem_cons_self
  | _ => exact hchain

end Call

/-- A call of a quiet closure leaves what it has captured as it is. -/
theorem ends_call {alarm : Alarm} {traced : Bool} {depth : Nat}
    (h : ∀ frame t, (discipline (scope frame t :: kept)).Matched alarm alarm
      (.watched alarm traced depth) (.watched alarm traced depth))
    {k : Snapshot} (hk : k ∈ kept) (hquiet : k.IsQuiet) {s : EvalState} {caller : Env}
    {operands : Value} (hs : (discipline kept).Keeps n s.store)
    (henv : (discipline kept).env n caller) (ho : (discipline kept).Allows n operands) :
    Discipline.Ends (discipline kept).Allows n
      (Closure.run (.watched alarm traced depth) caller k.formals k.body k.place operands s) := by
  have hfresh (k' : Snapshot) (hk' : k' ∈ kept) : k'.place ≠ s.store.tables.size :=
    (hs.store.ne_size k' hk').symm
  have hfills : Fills kept s.store.tables.size k.formals.parameterNames n
      (Closure.bind (.watched alarm traced depth) caller s.store.tables.size k.formals operands
        { s with store := (s.store.allocate .empty).2 }) :=
    fills_bind (h s.store.tables.size) hfresh (keeps_open hs) (env_open henv hs.store.1)
      (allows_open ho hs.store.1)
  obtain ⟨n₁, t, hle, hkeeps, hbound⟩ := hfills
  rw [Closure.run_eq]
  refine EvalM.bind_cases (Discipline.Ends (discipline kept).Allows n) (fun f s₂ hbind => ?_)
    (fun _ s₂ hbind => ?_)
  · rw [hbind] at hkeeps
    exact .error hle (keeps_close hkeeps)
  · rw [hbind] at hkeeps
    have hs₂ : (discipline kept).Keeps n₁ s₂.store := keeps_close hkeeps
    have htable : s₂.store.table k.place = k.table := (hs₂.store.2 k hk).2
    have hnames : ∀ y ∈ (s₂.store.table s.store.tables.size).names,
        y ∈ k.formals.parameterNames := by
      have hscope : s₂.store.table s.store.tables.size = t :=
        (hkeeps.store.2 (scope _ t) List.mem_cons_self).2
      rw [hscope]
      exact hbound
    unfold Level.items
    cases hbody : k.body.properItems with
    | error f => exact .error hle hs₂
    | ok es =>
      have hstill : Still s₂.store (Level.evaluateBody (.watched alarm traced depth)
          ((caller.push k.place).push s.store.tables.size) es) ((discipline kept).Allows n₁) :=
        .evaluateBody
          (fun e he => (hquiet es hbody e he).still hs₂ htable hnames alarm traced depth)
          (Discipline.allows_of_closures_eq_nil rfl)
      exact (hstill.ends hs₂ rfl).mono hle

/-- What quiet closures have captured is left as it is, also by calls of them. -/
theorem matched_of_isQuiet (hquiet : ∀ k ∈ kept, k.IsQuiet) (alarm : Alarm) (traced : Bool)
    (depth : Nat) : (discipline kept).Matched alarm alarm (.watched alarm traced depth)
      (.watched alarm traced depth) := by
  induction depth generalizing kept with
  | zero => exact Discipline.matched_zero traced
  | succ depth ih =>
    refine (ih hquiet).succ (fun _ hm => hm) (fun _ _ _ => trivial) (fun _ _ _ _ => trivial) ?_
    intro n env formals body operands captured s henv hclosure ho hs _
    obtain ⟨hcaptured, -, hbody⟩ := Discipline.allows_closure.mp hclosure
    by_cases hk : ∃ k ∈ kept, captured = k.place
    · obtain ⟨k, hk, rfl⟩ := hk
      obtain ⟨rfl, rfl⟩ := hcaptured.2 k hk rfl
      refine .same (ends_call (fun frame t => ih ?_) hk (hquiet k hk) hs henv ho)
      exact List.forall_mem_cons.mpr ⟨isQuiet_scope frame t, hquiet⟩
    · have hpush := env_push henv hcaptured fun k hk' heq => hk ⟨k, hk', heq⟩
      exact (ih hquiet).call henv hpush hbody ho s hs

end Snapshot

end MiniScheme
