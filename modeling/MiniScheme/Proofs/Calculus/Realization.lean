import MiniScheme.Proofs.Calculus.Expression
import MiniScheme.Proofs.Prelude.Core

/-!
# Computations that realize a meaning

A computation realizes a meaning if it yields the value of the datum, or ends in a fault of the kind
of the mistake. The built-in procedures do so for the operators. On its way a computation may put
new tables into the store, but it changes none that was there before.

One kind of mistake is not seen as what it is: the wording of a condition that is no boolean shows
the condition, so a condition of too many digits is seen as an integer that cannot be written.

## Main definitions

* `Calculus.Mistake.seen`: the kind of fault as which a mistake is seen.
* `Calculus.Realizes`: a computation goes the way that a meaning prescribes.
* `Calculus.Shows`: an environment shows the built-ins and a scope.

## Main statements

* `Calculus.Operator.agrees`: the built-in procedures compute what the operators do.
-/

namespace MiniScheme.Calculus

/-! ## Faults and mistakes -/

namespace Mistake

/-- Whether what a mistake is about can be written. Only a condition is shown at any size. -/
def isWritable : Mistake → Bool
  | condition d => d.isWritable
  | _ => true

def seen (m : Mistake) : Fault.Kind := if m.isWritable then m.kind else .tooManyDigits

theorem seen_ne_tooDeep (m : Mistake) : m.seen ≠ .tooDeep := by
  unfold seen
  split
  · cases m <;> simp [kind]
  · simp

end Mistake

theorem Datum.value_injective : Function.Injective Datum.value := by
  intro a b h
  cases a <;> cases b <;> simp_all [Datum.value]

theorem Datum.value_eq_false {d : Datum} : d.value = .boolean false ↔ d = .boolean false :=
  Datum.value_injective.eq_iff (b := .boolean false)

theorem Datum.obstacle?_value (d : Datum) (depth : Nat) :
    d.value.obstacle? depth = if d.isWritable then none else some .tooManyDigits := by
  cases d <;> rfl

/-! ## Operators -/

/-- An answer without a store agrees with what is expected: the results are related, or the fault
is of the kind as which the mistake is seen. -/
inductive Agrees {α β : Type} (depth : Nat) (R : β → α → Prop) :
    Except Mistake β → Except Fault α → Prop where
  | ok {b : β} {a : α} (h : R b a) : Agrees depth R (.ok b) (.ok a)
  | error {m : Mistake} {f : Fault} (h : (f.worded depth).kind = m.seen) :
      Agrees depth R (.error m) (.error f)

namespace Agrees

variable {α β γ δ : Type} {depth : Nat}

theorem bind {R : β → α → Prop} {R' : δ → γ → Prop} {expected : Except Mistake β}
    {answer : Except Fault α} {g : β → Except Mistake δ} {k : α → Except Fault γ}
    (h : Agrees depth R expected answer) (hk : ∀ b a, R b a → Agrees depth R' (g b) (k a)) :
    Agrees depth R' (expected >>= g) (answer >>= k) := by
  cases h with
  | ok h => exact hk _ _ h
  | error h => exact .error h

/-- An operand that is no integer is a fault that can be worded. -/
theorem operand {R : β → α → Prop} {p : Native} {d : Datum} (h : ∀ n, d ≠ .integer n) :
    Agrees depth R (.error .operand) (.error (.notAnInteger p d.value)) := by
  refine .error ?_
  cases d with
  | integer n => exact absurd rfl (h n)
  | boolean | nothing => rfl

theorem wholes (p : Native) (ds : List Datum) :
    Agrees depth Eq (Datum.wholes ds) (p.integers (ds.map Datum.value)) := by
  induction ds with
  | nil => exact .ok rfl
  | cons d ds ih =>
    cases d with
    | integer n =>
      have hrest : Agrees depth Eq (do return n :: (← Datum.wholes ds))
          (do return n :: (← p.integers (ds.map Datum.value))) :=
        ih.bind fun _ _ h => .ok (congrArg (n :: ·) h)
      have hmap (r : Except Fault (List Int)) : (n :: ·) <$> r = do return n :: (← r) := by
        cases r <;> rfl
      change Agrees depth Eq _ ((n :: ·) <$> p.integers (ds.map Datum.value))
      rw [hmap]
      exact hrest
    | boolean | nothing => exact operand fun _ => Datum.noConfusion

theorem wholePair (p : Native) (a b : Datum) {R : δ → γ → Prop} {g : Int → Int → Except Mistake δ}
    {k : Int × Int → Except Fault γ} (hk : ∀ m n, Agrees depth R (g m n) (k (m, n))) :
    Agrees depth R (do g (← a.whole) (← b.whole)) (p.integerPair a.value b.value >>= k) := by
  cases a with
  | integer m =>
    cases b with
    | integer n => exact hk m n
    | boolean | nothing => exact operand fun _ => Datum.noConfusion
  | boolean | nothing => cases b <;> exact operand fun _ => Datum.noConfusion

end Agrees

theorem foldl_add (n : Int) (ns : List Int) : ns.foldl (· + ·) n = n + total ns := by
  induction ns generalizing n with
  | nil => simp [total]
  | cons m ns ih => rw [List.foldl_cons, ih, total, Int.add_assoc]

theorem foldl_sub (n : Int) (ns : List Int) : ns.foldl (· - ·) n = n - total ns := by
  induction ns generalizing n with
  | nil => simp [total]
  | cons m ns ih =>
    rw [List.foldl_cons, ih, total]
    omega

theorem foldl_mul (n : Int) (ns : List Int) : ns.foldl (· * ·) n = n * product ns := by
  induction ns generalizing n with
  | nil => simp [product]
  | cons m ns ih => rw [List.foldl_cons, ih, product, Int.mul_assoc]

theorem quotients_eq (n : Int) (ds : List Int) :
    Native.quotients n ds =
      if 0 ∈ ds then .error .divisionByZero else .ok (ds.foldl Int.tdiv n) := by
  induction ds generalizing n with
  | nil => rfl
  | cons d ds ih =>
    rw [Native.quotients, ih]
    by_cases hd : d = 0
    · simp [hd]
    · simp [hd, Ne.symm hd]

theorem equal?_value (a b : Datum) (depth : Nat) :
    a.value.equal? depth b.value = some (decide (a = b)) := by
  have hflat : a.value.equal? depth b.value = some (decide (a.value = b.value)) := by
    cases a <;> cases b <;> rfl
  rw [hflat]
  simp only [Datum.value_injective.eq_iff]

def IsValueOf (d : Datum) (v : Value) : Prop := v = d.value

/-- A built-in procedure computes what its operator does. -/
theorem Operator.agrees (op : Operator) (ds : List Datum) (depth : Nat) :
    Agrees depth IsValueOf (op.apply ds) (op.native.compute depth (ds.map Datum.value)) := by
  cases op with
  | add =>
    refine (Agrees.wholes _ ds).bind ?_
    rintro ns _ rfl
    exact .ok (by simp [IsValueOf, foldl_add, Datum.value])
  | subtract =>
    refine (Agrees.wholes _ ds).bind ?_
    rintro ns _ rfl
    cases ns with
    | nil => exact .error rfl
    | cons n ns => exact .ok (by simp [IsValueOf, foldl_sub, Datum.value])
  | multiply =>
    refine (Agrees.wholes _ ds).bind ?_
    rintro ns _ rfl
    exact .ok (by simp [IsValueOf, foldl_mul, Datum.value])
  | divide =>
    refine (Agrees.wholes _ ds).bind ?_
    rintro ns _ rfl
    cases ns with
    | nil => exact .error rfl
    | cons n ns =>
      dsimp only
      rw [quotients_eq]
      split
      · exact .error rfl
      · exact .ok rfl
  | modulo =>
    rcases ds with _ | ⟨a, _ | ⟨b, _ | _⟩⟩
    case cons.cons.nil =>
      refine Agrees.wholePair .modulo a b fun n d => ?_
      dsimp only
      unfold Native.remainder
      split
      · exact .error rfl
      · exact .ok rfl
    all_goals exact .error rfl
  | greater =>
    rcases ds with _ | ⟨a, _ | ⟨b, _ | _⟩⟩
    case cons.cons.nil => exact Agrees.wholePair .greater a b fun _ _ => .ok rfl
    all_goals exact .error rfl
  | less =>
    rcases ds with _ | ⟨a, _ | ⟨b, _ | _⟩⟩
    case cons.cons.nil => exact Agrees.wholePair .less a b fun _ _ => .ok rfl
    all_goals exact .error rfl
  | equal =>
    rcases ds with _ | ⟨a, _ | ⟨b, _ | _⟩⟩
    case cons.cons.nil =>
      simp only [native, Native.compute, List.map_cons, List.map_nil, equal?_value]
      exact .ok rfl
    all_goals exact .error rfl
  | not =>
    rcases ds with _ | ⟨a, _ | _⟩
    case cons.nil =>
      simp only [native, Native.compute, List.map_cons, List.map_nil, Datum.value_eq_false]
      exact .ok rfl
    all_goals exact .error rfl

/-! ## Computations that go the way of a meaning -/

/-- The outcome of a computation is the one that is expected: the results and the store are
related, or the fault is of the kind as which the mistake is seen. -/
inductive Fulfils {α β : Type} (Q : β → α → Store → Prop) :
    Except Mistake β → EStateM.Result Fault EvalState α → Prop where
  | ok {b : β} {a : α} {s : EvalState} (h : Q b a s.store) : Fulfils Q (.ok b) (.ok a s)
  | error {m : Mistake} {f : Fault} {s : EvalState} (h : f.kind = m.seen) :
      Fulfils Q (.error m) (.error f s)

/-- A computation has the outcome that is expected, whatever was reported before. -/
def Realizes {α β : Type} (x : EvalM α) (store : Store) (expected : Except Mistake β)
    (Q : β → α → Store → Prop) : Prop :=
  ∀ events, Fulfils Q expected (x ⟨store, events⟩)

namespace Realizes

variable {α β γ δ : Type} {store store₁ : Store}

theorem pure {Q : β → α → Store → Prop} {b : β} {a : α} (h : Q b a store) :
    Realizes (pure a) store (.ok b) Q := fun _ => .ok h

theorem of_gives {Q : β → α → Store → Prop} {x : EvalM α} {b : β} {a : α}
    (h : Gives x store a store₁) (hQ : Q b a store₁) : Realizes x store (.ok b) Q := by
  intro events
  obtain ⟨events₁, hx⟩ := h events
  rw [hx]
  exact .ok hQ

theorem bind {Q : β → α → Store → Prop} {R : δ → γ → Store → Prop} {x : EvalM α}
    {k : α → EvalM γ} {expected : Except Mistake β} {g : β → Except Mistake δ}
    (h : Realizes x store expected Q)
    (hk : ∀ b a store₁, Q b a store₁ → Realizes (k a) store₁ (g b) R) :
    Realizes (x >>= k) store (expected >>= g) R := by
  intro events
  have hx := h events
  simp only [Bind.bind, EStateM.bind]
  generalize x ⟨store, events⟩ = outcome at hx
  cases hx with
  | ok hQ => exact hk _ _ _ hQ _
  | error hf => exact .error hf

/-- A step that has an answer anyway is not expected to be mentioned. -/
theorem after {Q : β → α → Store → Prop} {x : EvalM γ} {k : γ → EvalM α} {u : γ}
    {expected : Except Mistake β} (hx : Gives x store u store₁)
    (hk : Realizes (k u) store₁ expected Q) : Realizes (x >>= k) store expected Q := by
  intro events
  obtain ⟨events₁, hx⟩ := hx events
  simp only [Bind.bind, EStateM.bind, hx]
  exact hk events₁

theorem mono {Q R : β → α → Store → Prop} {x : EvalM α} {expected : Except Mistake β}
    (h : Realizes x store expected Q) (hQ : ∀ b a store₁, Q b a store₁ → R b a store₁) :
    Realizes x store expected R := by
  intro events
  have hx := h events
  generalize x ⟨store, events⟩ = outcome at hx ⊢
  cases hx with
  | ok hb => exact .ok (hQ _ _ _ hb)
  | error hf => exact .error hf

theorem raise {Q : β → α → Store → Prop} {level : Level} {f : Fault} {m : Mistake}
    (h : (f.worded level.depth).kind = m.seen) :
    Realizes (level.raise f) store (.error m) Q := fun _ => .error h

end Realizes

/-! ## Stores that grow -/

/-- No table is gone, and those below a place are unchanged. -/
structure Grows (n : Nat) (s s' : Store) : Prop where
  size : s.tables.size ≤ s'.tables.size
  table : ∀ id < n, s'.table id = s.table id

namespace Grows

variable {n m : Nat} {s s' s'' : Store}

theorem refl (n : Nat) (s : Store) : Grows n s s := ⟨Nat.le_refl _, fun _ _ => rfl⟩

theorem trans (h : Grows n s s') (h' : Grows n s' s'') : Grows n s s'' :=
  ⟨Nat.le_trans h.size h'.size, fun id hid => (h'.table id hid).trans (h.table id hid)⟩

theorem mono (h : Grows n s s') (hle : m ≤ n) : Grows m s s' :=
  ⟨h.size, fun id hid => h.table id (Nat.lt_of_lt_of_le hid hle)⟩

theorem allocate (h : n ≤ s.tables.size) (t : Table) : Grows n s (s.allocate t).2 :=
  ⟨by simp, fun _ hid => Store.table_allocate_of_lt (Nat.lt_of_lt_of_le hid h) t⟩

theorem define {frame : TableId} (h : n ≤ frame) (x : String) (v : Value) :
    Grows n s (s.define frame x v) :=
  ⟨by simp, fun _ hid => Store.table_define_of_ne (Nat.ne_of_lt (Nat.lt_of_lt_of_le hid h)) x v⟩

theorem get?_eq (h : Grows n s s') {env : Env} (henv : ∀ id ∈ env.tables, id < n) (x : String) :
    s'.get? env x = s.get? env x := by
  rw [Store.get?_eq, Store.get?_eq]
  revert henv
  induction env.tables with
  | nil => exact fun _ => rfl
  | cons id ids ih =>
    intro henv
    obtain ⟨hid, hids⟩ := List.forall_mem_cons.mp henv
    rw [List.findSome?_cons, List.findSome?_cons, h.table id hid, ih hids]

end Grows

/-- What a computation yields: a result as it is expected, and a store in which every table that
was there is unchanged. -/
structure Yields {α β : Type} (R : β → α → Prop) (s : Store) (b : β) (a : α) (s' : Store) :
    Prop where
  result : R b a
  grows : Grows s.tables.size s s'

theorem Yields.before {α β : Type} {R : β → α → Prop} {s s' s'' : Store} {b : β} {a : α}
    (h : Yields R s' b a s'') (hgrows : Grows s.tables.size s s') : Yields R s b a s'' :=
  ⟨h.result, hgrows.trans (h.grows.mono hgrows.size)⟩

theorem Realizes.lift {α β : Type} {R : β → α → Prop} {level : Level} {store : Store}
    {expected : Except Mistake β} {answer : Except Fault α}
    (h : Agrees level.depth R expected answer) :
    Realizes (level.lift answer) store expected (Yields R store) := by
  cases h with
  | ok h => exact .pure ⟨h, .refl _ _⟩
  | error h => exact .raise h

/-! ## Environments that show a scope -/

/-- An environment whose tables stand below a place shows the built-ins of an installation and what
the names of a scope mean. -/
structure Shows (installation n : Nat) (scope : Scope) (store : Store) (env : Env) : Prop where
  builtins : ShowsBuiltins installation (store.get? env)
  names : ∀ x d, scope x = some d → store.get? env x = some d.value
  below : ∀ id ∈ env.tables, id < n
  size : n ≤ store.tables.size

theorem Shows.grows {installation n : Nat} {scope : Scope} {store store' : Store} {env : Env}
    (h : Shows installation n scope store env) (hgrows : Grows n store store') :
    Shows installation n scope store' env where
  builtins x v hx := by rw [hgrows.get?_eq h.below]; exact h.builtins x v hx
  names x d hx := by rw [hgrows.get?_eq h.below]; exact h.names x d hx
  below := h.below
  size := Nat.le_trans h.size hgrows.size

theorem Shows.after {installation n : Nat} {scope : Scope} {store store' : Store} {env : Env}
    (h : Shows installation n scope store env) (hgrows : Grows store.tables.size store store') :
    Shows installation n scope store' env :=
  h.grows (hgrows.mono h.size)

/-- All tables of a store stand below its size. -/
theorem Shows.whole {installation n : Nat} {scope : Scope} {store : Store} {env : Env}
    (h : Shows installation n scope store env) :
    Shows installation store.tables.size scope store env :=
  ⟨h.builtins, h.names, fun id hid => Nat.lt_of_lt_of_le (h.below id hid) h.size, Nat.le_refl _⟩

end MiniScheme.Calculus
