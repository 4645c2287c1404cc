import MiniScheme.Proofs.Calculus.Realization
import MiniScheme.Proofs.Value.Written

/-!
# Evaluation of pure expressions

Each rule of evaluation goes the way of the meaning: operands are evaluated from left to right, a
branch, `and` and `or` stop where the meaning stops, and a `let` fills a new table on its way while
the meaning extends a scope. Whatever the reader has room to read, evaluation has depth to evaluate,
because both go two levels down for a pair of brackets.

## Main definitions

* `Calculus.Denotes`: evaluation of an expression realizes its meaning.
* `Calculus.Layer`: a table that extends a scope.

## Main statements

* `Calculus.native_realizes`, `Calculus.runBranch_realizes`, `Calculus.binding_realizes`: one rule
  each.
* `Calculus.Expr.Legal.denotes`: evaluation realizes the meaning of every legal expression.
-/

namespace MiniScheme.Calculus

open MiniScheme.Calculus.Expr

/-- Evaluation of an expression yields what the expression means. -/
def Denotes (installation : Nat) (level : Level) (env : Env) (scope : Scope) (e : Expr) : Prop :=
  ∀ n store, Shows installation n scope store env →
    Realizes (level.evaluate env e.form) store (e.meaning scope) (Yields IsValueOf store)

/-! ## One rule after another -/

section Rules

variable {installation n : Nat} {level : Level} {env : Env} {scope : Scope} {store : Store}

/-- What is evaluated after something else changes no table that was there at first. -/
theorem Denotes.next {e : Expr} {store₁ : Store} (h : Denotes installation level env scope e)
    (hshows : Shows installation n scope store env)
    (hgrows : Grows store.tables.size store store₁) :
    Realizes (level.evaluate env e.form) store₁ (e.meaning scope) (Yields IsValueOf store) :=
  (h n store₁ (hshows.after hgrows)).mono fun _ _ _ hy => hy.before hgrows

theorem evaluateAll_realizes {es : List Expr}
    (hes : ∀ e ∈ es, Denotes installation level env scope e)
    (hshows : Shows installation n scope store env) :
    Realizes (level.evaluateAll env (forms es)) store (meanings scope es)
      (Yields (fun ds vs => vs = ds.map Datum.value) store) := by
  induction es generalizing store with
  | nil => exact .pure ⟨rfl, .refl _ _⟩
  | cons e es ih =>
    obtain ⟨he, hes⟩ := List.forall_mem_cons.mp hes
    refine (he n store hshows).bind fun d v store₁ hd => ?_
    refine (ih hes (hshows.after hd.grows)).bind fun ds vs store₂ hds => ?_
    refine .pure ⟨?_, (hds.before hd.grows).grows⟩
    rw [hd.result, hds.result, List.map_cons]

/-- A condition has to be a boolean, by which evaluation and meaning choose how to go on. -/
theorem condition_realizes {e : Expr} {k : Bool → EvalM Value} {g : Bool → Except Mistake Datum}
    (he : Denotes installation level env scope e) (hshows : Shows installation n scope store env)
    (hk : ∀ b store₁, Grows store.tables.size store store₁ →
      Realizes (k b) store₁ (g b) (Yields IsValueOf store)) :
    Realizes (Form.condition level env e.form >>= k) store
      (do g (← (← e.meaning scope).truth)) (Yields IsValueOf store) := by
  have hseen (d : Datum) : ((Fault.branchCondition d.value).worded level.depth).kind =
      (Mistake.condition d).seen := by
    simp only [Fault.worded, Fault.culprit?, Option.bind_some, Datum.obstacle?_value, Mistake.seen,
      Mistake.isWritable]
    by_cases hd : d.isWritable = true
    · simp [hd, Fault.kind, Mistake.kind]
    · simp [hd, Fault.kind, Fault.ofWriteError]
  have hcondition : Realizes (Form.condition level env e.form) store
      (do (← e.meaning scope).truth) (Yields Eq store) := by
    refine (he n store hshows).bind fun d v store₁ hd => ?_
    obtain rfl : v = d.value := hd.result
    cases d with
    | boolean b => exact .pure ⟨rfl, hd.grows⟩
    | integer | nothing => exact .raise (hseen _)
  rw [← bind_assoc]
  refine hcondition.bind fun b _ store₁ hb => ?_
  obtain rfl := hb.result
  exact hk b store₁ hb.grows

theorem runBranch_realizes {condition consequent alternative : Expr}
    (hcondition : Denotes installation level env scope condition)
    (hconsequent : Denotes installation level env scope consequent)
    (halternative : Denotes installation level env scope alternative)
    (hshows : Shows installation n scope store env) :
    Realizes (Form.runBranch level env
        (.chain [condition.form, consequent.form, alternative.form] .nil)) store
      ((branch condition consequent alternative).meaning scope) (Yields IsValueOf store) := by
  refine .after (.items _) (condition_realizes hcondition hshows fun b store₁ hgrows => ?_)
  cases b with
  | true => exact hconsequent.next hshows hgrows
  | false => exact halternative.next hshows hgrows

theorem runBranch_realizes_guard {condition consequent : Expr}
    (hcondition : Denotes installation level env scope condition)
    (hconsequent : Denotes installation level env scope consequent)
    (hshows : Shows installation n scope store env) :
    Realizes (Form.runBranch level env (.chain [condition.form, consequent.form] .nil)) store
      ((guard condition consequent).meaning scope) (Yields IsValueOf store) := by
  refine .after (.items _) (condition_realizes hcondition hshows fun b store₁ hgrows => ?_)
  cases b with
  | true => exact hconsequent.next hshows hgrows
  | false => exact .pure ⟨rfl, hgrows⟩

theorem allTrue_realizes {es : List Expr} {last : Datum}
    (hes : ∀ e ∈ es, Denotes installation level env scope e)
    (hshows : Shows installation n scope store env) :
    Realizes (Form.allTrue level env last.value (forms es)) store (lastTrue scope last es)
      (Yields IsValueOf store) := by
  induction es generalizing store last with
  | nil => exact .pure ⟨rfl, .refl _ _⟩
  | cons e es ih =>
    obtain ⟨he, hes⟩ := List.forall_mem_cons.mp hes
    refine (he n store hshows).bind fun d v store₁ hd => ?_
    obtain rfl : v = d.value := hd.result
    simp only [Datum.value_eq_false]
    split
    · exact .pure ⟨rfl, hd.grows⟩
    · exact (ih hes (hshows.after hd.grows)).mono fun _ _ _ hy => hy.before hd.grows

theorem anyTrue_realizes {es : List Expr}
    (hes : ∀ e ∈ es, Denotes installation level env scope e)
    (hshows : Shows installation n scope store env) :
    Realizes (Form.anyTrue level env (forms es)) store (firstTrue scope es)
      (Yields IsValueOf store) := by
  induction es generalizing store with
  | nil => exact .pure ⟨rfl, .refl _ _⟩
  | cons e es ih =>
    obtain ⟨he, hes⟩ := List.forall_mem_cons.mp hes
    refine (he n store hshows).bind fun d v store₁ hd => ?_
    obtain rfl : v = d.value := hd.result
    simp only [Datum.value_eq_false]
    split
    · exact (ih hes (hshows.after hd.grows)).mono fun _ _ _ hy => hy.before hd.grows
    · exact .pure ⟨rfl, hd.grows⟩

theorem native_realizes {es : List Expr} (op : Operator)
    (hes : ∀ e ∈ es, Denotes installation level env scope e)
    (hshows : Shows installation n scope store env) :
    Realizes (Native.run level env op.native (.chain (forms es) .nil)) store
      ((call op es).meaning scope) (Yields IsValueOf store) := by
  refine .after (.items _) ((evaluateAll_realizes hes hshows).bind fun ds vs store₁ hds => ?_)
  obtain rfl : vs = ds.map Datum.value := hds.result
  have hlift : Realizes (level.lift (op.native.compute level.depth (ds.map Datum.value))) store₁
      (op.apply ds) (Yields IsValueOf store) :=
    (Realizes.lift (op.agrees ds level.depth)).mono fun _ _ _ hy => hy.before hds.grows
  cases op <;> exact hlift

end Rules

/-! ## Bindings -/

/-- A table over an environment that shows a scope: together they show an inner scope, in which
some names are bound. No built-in is hidden. -/
structure Layer (names : List String) (scope : Scope) (t : Table) (inner : Scope) : Prop where
  shows : ∀ x, (inner x).map Datum.value = (t.get? x).or ((scope x).map Datum.value)
  hidden : ∀ x ∈ builtinNames, t.get? x = none
  bound : ∀ x ∈ names, (inner x).isSome = true

namespace Layer

variable {names : List String} {scope inner : Scope} {t : Table}

theorem empty (h : ∀ x ∈ names, (scope x).isSome = true) : Layer names scope .empty scope where
  shows _ := rfl
  hidden _ _ := rfl
  bound := h

theorem insert {x : String} (h : Layer names scope t inner) (hx : x ∉ builtinNames) (d : Datum) :
    Layer (x :: names) scope (t.insert x d.value) (Function.update inner x (some d)) where
  shows y := by
    rw [Table.get?_insert]
    by_cases hy : y = x
    · subst hy
      simp
    · rw [if_neg hy, Function.update_of_ne hy, h.shows]
  hidden y hy := by
    have hne : y ≠ x := fun he => hx (he ▸ hy)
    rw [Table.get?_insert, if_neg hne, h.hidden y hy]
  bound y hy := by
    by_cases he : y = x
    · subst he
      simp
    · rw [Function.update_of_ne he]
      exact h.bound y ((List.mem_cons.mp hy).resolve_left he)

theorem mono {names' : List String} (h : Layer names scope t inner)
    (hle : ∀ x ∈ names', x ∈ names) : Layer names' scope t inner :=
  ⟨h.shows, h.hidden, fun x hx => h.bound x (hle x hx)⟩

end Layer

/-- In a fresh scope over an environment, the inner scope is shown. -/
theorem Shows.push {installation n : Nat} {scope inner : Scope} {store : Store} {env : Env}
    {names : List String} {frame : TableId} (h : Shows installation n scope store env)
    (hlayer : Layer names scope (store.table frame) inner) (hle : n ≤ frame)
    (hframe : frame < store.tables.size) :
    Shows installation (frame + 1) inner store (env.push frame) where
  builtins x v hx := by
    rw [Store.get?_push, hlayer.hidden x (ShowsBuiltins.mem_builtinNames hx), Option.none_or]
    exact h.builtins x v hx
  names x d hx := by
    have hshows := hlayer.shows x
    rw [hx, Option.map_some] at hshows
    rw [Store.get?_push]
    cases hget : (store.table frame).get? x with
    | some v =>
      rw [hget, Option.some_or] at hshows
      rw [Option.some_or, hshows]
    | none =>
      rw [hget, Option.none_or] at hshows
      obtain ⟨d', hd', hvalue⟩ := Option.map_eq_some_iff.mp hshows.symm
      rw [Option.none_or, h.names x d' hd', hvalue]
  below id hid := by
    rw [Env.tables_push] at hid
    rcases List.mem_cons.mp hid with rfl | hid
    · exact Nat.lt_succ_self _
    · exact Nat.lt_succ_of_lt (Nat.lt_of_lt_of_le (h.below id hid) hle)
  size := hframe

section Bindings

variable {installation n : Nat} {level : Level} {env : Env} {scope : Scope}

/-- Initialisers are evaluated in the environment around a `let`, and the table of the `let` is
filled on the way. -/
theorem bindInitialisers_realizes {bs : List (String × Expr)} {frame : TableId}
    (hnames : ∀ b ∈ bs, IsName b.1)
    (hbs : ∀ b ∈ bs, Denotes installation level env scope b.2) (hle : n ≤ frame)
    {store : Store} {names : List String} {inner : Scope}
    (hshows : Shows installation n scope store env) (hframe : frame < store.tables.size)
    (hlayer : Layer names scope (store.table frame) inner) :
    Realizes (Form.bindInitialisers level env frame (entries bs)) store (extended scope inner bs)
      (fun inner' _ store' => Grows n store store' ∧
        Layer (bs.map Prod.fst ++ names) scope (store'.table frame) inner') := by
  induction bs generalizing store names inner with
  | nil => exact .pure ⟨.refl _ _, hlayer⟩
  | cons b bs ih =>
    -- the initialiser may allocate, but the table that is being filled is there already
    obtain ⟨x, e⟩ := b
    obtain ⟨hx, hnames⟩ := List.forall_mem_cons.mp hnames
    obtain ⟨he, hbs⟩ := List.forall_mem_cons.mp hbs
    refine .after (.items _) ((he n store hshows).bind fun d v store₁ hd => ?_)
    obtain rfl : v = d.value := hd.result
    have hdefine : Gives (EvalM.define frame x d.value) store₁ ()
        (store₁.define frame x d.value) := fun events => ⟨events, rfl⟩
    have hframe₁ : frame < store₁.tables.size := Nat.lt_of_lt_of_le hframe hd.grows.size
    have hgrows : Grows n store (store₁.define frame x d.value) :=
      (hd.grows.mono hshows.size).trans (.define hle x d.value)
    have htable : (store₁.define frame x d.value).table frame =
        (store.table frame).insert x d.value := by
      rw [Store.table_define _ _ _ _ hframe₁, if_pos rfl, hd.grows.table frame hframe]
    have hlayer₁ := hlayer.insert hx.2.2 d
    rw [← htable] at hlayer₁
    refine .after hdefine ((ih hnames hbs (hshows.grows hgrows) (by simpa using hframe₁)
      hlayer₁).mono fun inner' _ store' h => ⟨hgrows.trans h.1, h.2.mono ?_⟩)
    simp only [List.map_cons, List.mem_append, List.mem_cons]
    tauto

/-- A `let` fills a new table and evaluates its body in front of it. -/
theorem binding_realizes {bs : List (String × Expr)} {body : Expr} {store : Store}
    {names : List String} (hnames : ∀ b ∈ bs, IsName b.1)
    (hbs : ∀ b ∈ bs, Denotes installation level env scope b.2)
    (hbound : ∀ x ∈ names, (scope x).isSome = true)
    (hbody : ∀ (frame : TableId) (inner : Scope),
      (∀ x ∈ bs.map Prod.fst ++ names, (inner x).isSome = true) →
      Denotes installation level (env.push frame) inner body)
    (hshows : Shows installation n scope store env) :
    Realizes (Form.runBinding level env (.chain [.chain (entries bs) .nil, body.form] .nil)) store
      ((binding bs body).meaning scope) (Yields IsValueOf store) := by
  have hallocate : Gives (EvalM.allocate .empty) store store.tables.size
      (store.allocate .empty).2 := fun events => ⟨events, rfl⟩
  have hfresh : Grows store.tables.size store (store.allocate .empty).2 :=
    .allocate (Nat.le_refl _) .empty
  have hall : Shows installation store.tables.size scope (store.allocate .empty).2 env :=
    hshows.whole.grows hfresh
  have hframe : store.tables.size < (store.allocate .empty).2.tables.size := by simp
  have hlayer : Layer names scope ((store.allocate .empty).2.table store.tables.size) scope := by
    rw [Store.table_allocate, if_pos rfl]
    exact .empty hbound
  refine .after hallocate (.after (.items _) ((bindInitialisers_realizes hnames hbs
    (Nat.le_refl _) hall hframe hlayer).bind fun inner _ store₁ h => ?_))
  obtain ⟨hgrows, hlayer⟩ := h
  have hinner : Shows installation (store.tables.size + 1) inner store₁
      (env.push store.tables.size) :=
    (hall.grows hgrows).push hlayer (Nat.le_refl _) (Nat.lt_of_lt_of_le hframe hgrows.size)
  refine .after (.items [body.form]) ?_
  exact (hbody _ inner hlayer.bound _ store₁ hinner).mono fun _ _ _ hy =>
    hy.before (hfresh.trans hgrows)

end Bindings

/-! ## Every construct -/

/-- What is written in brackets leaves the reader enough room for what stands in them, and leaves
evaluation enough depth. -/
theorem legible_phrase {x : String} {operands : List Value} {room depth : Nat}
    (h : (phrase x operands).Legible .alone room) (hroom : room < depth) :
    ∃ d r, depth = d + 2 ∧ r < d ∧ (Value.chain operands .nil).Legible .right r := by
  obtain ⟨hweight, -, hoperands⟩ := h
  simp only [Value.Place.weight] at hweight hoperands
  exact ⟨depth - 2, room - 2, by omega, by omega, hoperands⟩

/-- A call by name goes as the procedure does that the name means. -/
theorem Realizes.phrase {traced : Bool} {depth room : Nat} {env : Env} {store : Store} {x : String}
    {f : Value} {operands : List Value} {expected : Except Mistake Datum}
    {Q : Datum → Value → Store → Prop} (hx : store.get? env x = some f)
    (hf : f.isProcedure = true) (hoperands : (Value.chain operands .nil).Legible .right room)
    (hroom : room < depth)
    (h : Realizes (step (.ofDepth traced depth) env f (.chain operands .nil)) store expected Q) :
    Realizes (eval traced (depth + 2) env (phrase x operands) .nil) store expected Q := by
  have hwords : (Event.applying (.symbol x) (.chain operands .nil)).obstacle? (depth + 1) =
      none := by
    have hchain := Value.obstacle?_of_legible hoperands (by omega : room ≤ depth + 1) (by omega)
    simp [Event.obstacle?, Event.values, Value.obstacle?, hchain]
  have hsymbol : Gives (eval traced (depth + 1) env (.symbol x) .nil) store f store := .symbol hx
  have happly : Realizes (Level.apply (.ofDepth traced (depth + 1)) env f (.chain operands .nil))
      store expected Q := by
    unfold Level.apply
    rw [if_pos hf]
    exact h
  exact .after (.report fun _ => hwords) (.after hsymbol happly)

/-- Evaluation that may nest as deep as the reader did realizes the meaning of a legal
expression. -/
theorem Expr.Legal.denotes {names : List String} {e : Expr} (h : Legal names e)
    {installation : Nat} {traced : Bool} {depth room : Nat} {env : Env} {scope : Scope}
    (hlegible : e.form.Legible .alone room) (hroom : room < depth)
    (hbound : ∀ x ∈ names, (scope x).isSome = true) :
    Denotes installation (.ofDepth traced depth) env scope e := by
  -- each pair of brackets takes two from the room and from the depth, so one stays below the other
  induction h generalizing depth room env scope with
  | integer hn | boolean b =>
    obtain ⟨d, rfl⟩ := Nat.exists_eq_add_one_of_ne_zero (Nat.ne_zero_of_lt hroom)
    exact fun n store _ => .pure ⟨rfl, .refl _ _⟩
  | @name _ x hx =>
    obtain ⟨d, rfl⟩ := Nat.exists_eq_add_one_of_ne_zero (Nat.ne_zero_of_lt hroom)
    intro n store hshows
    obtain ⟨datum, hdatum⟩ := Option.isSome_iff_exists.mp (hbound x hx)
    have hmeaning : (Expr.name x).meaning scope = .ok datum := by simp only [meaning, hdatum]
    have hsymbol : Gives (eval traced (d + 1) env (.symbol x) .nil) store datum.value store :=
      .symbol (hshows.names x datum hdatum)
    rw [hmeaning]
    exact .of_gives hsymbol ⟨rfl, .refl _ _⟩
  | call op hes ih =>
    obtain ⟨d, r, rfl, hr, hoperands⟩ := legible_phrase hlegible hroom
    intro n store hshows
    refine .phrase (hshows.builtins.native op.native) rfl hoperands hr ?_
    refine native_realizes op (fun e he => ih e he ?_ hr hbound) hshows
    exact hoperands.of_mem_chain _ (mem_forms.mpr ⟨e, he, rfl⟩)
  | guard hcondition hconsequent ihcondition ihconsequent =>
    obtain ⟨d, r, rfl, hr, hoperands⟩ := legible_phrase hlegible hroom
    intro n store hshows
    refine .phrase (hshows.builtins.form .branch) rfl hoperands hr ?_
    have hlegible := hoperands.of_mem_chain
    exact runBranch_realizes_guard (ihcondition (hlegible _ (by simp)) hr hbound)
      (ihconsequent (hlegible _ (by simp)) hr hbound) hshows
  | branch hcondition hconsequent halternative ihcondition ihconsequent ihalternative =>
    obtain ⟨d, r, rfl, hr, hoperands⟩ := legible_phrase hlegible hroom
    intro n store hshows
    refine .phrase (hshows.builtins.form .branch) rfl hoperands hr ?_
    have hlegible := hoperands.of_mem_chain
    exact runBranch_realizes (ihcondition (hlegible _ (by simp)) hr hbound)
      (ihconsequent (hlegible _ (by simp)) hr hbound)
      (ihalternative (hlegible _ (by simp)) hr hbound) hshows
  | conjunction hes ih =>
    obtain ⟨d, r, rfl, hr, hoperands⟩ := legible_phrase hlegible hroom
    intro n store hshows
    refine .phrase (hshows.builtins.form .conjunction) rfl hoperands hr (.after (.items _) ?_)
    refine allTrue_realizes (fun e he => ih e he ?_ hr hbound) hshows
    exact hoperands.of_mem_chain _ (mem_forms.mpr ⟨e, he, rfl⟩)
  | disjunction hes ih =>
    obtain ⟨d, r, rfl, hr, hoperands⟩ := legible_phrase hlegible hroom
    intro n store hshows
    refine .phrase (hshows.builtins.form .disjunction) rfl hoperands hr (.after (.items _) ?_)
    refine anyTrue_realizes (fun e he => ih e he ?_ hr hbound) hshows
    exact hoperands.of_mem_chain _ (mem_forms.mpr ⟨e, he, rfl⟩)
  | @binding _ bs body hnames hbs hbody ihbs ihbody =>
    obtain ⟨d, r, rfl, hr, hoperands⟩ := legible_phrase hlegible hroom
    intro n store hshows
    refine .phrase (hshows.builtins.form .binding) rfl hoperands hr ?_
    obtain ⟨hentries, hlegible⟩ := List.forall_mem_cons.mp hoperands.of_mem_chain
    refine binding_realizes hnames (fun b hb => ihbs b hb ?_ hr hbound) hbound
      (fun frame inner hinner => ihbody (hlegible _ (by simp)) hr hinner) hshows
    have hentry := hentries.right.of_mem_chain _ (mem_entries.mpr ⟨b, hb, rfl⟩)
    exact hentry.right.of_mem_chain _ (by simp)

end MiniScheme.Calculus
