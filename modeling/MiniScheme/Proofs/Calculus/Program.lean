import MiniScheme.Proofs.Calculus.Denotation
import MiniScheme.Proofs.Reader.Acceptance
import MiniScheme.Proofs.Value.RoundTrip

/-!
# Programs that are pure expressions

A program whose text spells a pure expression, in whatever layout, is answered with what the
expression means, in every session that still has its built-ins. Only two limits of the program
come in between: on nesting, and on the digits of an integer that has to be shown.

## Main definitions

* `Calculus.Expr.Spells`: a text spells an expression.
* `Calculus.Response`: the answer to an expression.

## Main statements

* `Calculus.Expr.Legal.run_responds_meaning`: programs are answered with what they mean.
* `Calculus.run_squareBranch`: where a mistake is not seen as what it is.
-/

namespace MiniScheme.Calculus

open Reader

/-! ## Texts of expressions -/

/-- A text is cut into tokens that spell an expression, but for ends of lines. -/
structure Expr.Spells (source : String) (tokens : List Token) (e : Expr) : Prop where
  cut : Source.tokens source = .ok tokens
  reads : Expression (Cursor.meaningful tokens) e.form

/-- What can be read from its own text: a value that has one, in which no dot can be taken for the
mark of a tail. -/
structure Readable (v : Value) : Prop where
  legible : ∃ room, v.Legible .alone room
  dotFree : v.dotFree = true
  ne_dot : v ≠ .symbol "."

namespace Readable

theorem exists_room {vs : List Value} (h : ∀ v ∈ vs, Readable v) :
    ∃ room, ∀ v ∈ vs, v.Legible .alone room := by
  induction vs with
  | nil => exact ⟨0, by simp⟩
  | cons v vs ih =>
    obtain ⟨hv, hvs⟩ := List.forall_mem_cons.mp h
    obtain ⟨room, hroom⟩ := hv.legible
    obtain ⟨room', hroom'⟩ := ih hvs
    refine ⟨max room room', List.forall_mem_cons.mpr ⟨hroom.mono (Nat.le_max_left _ _), ?_⟩⟩
    exact fun u hu => (hroom' u hu).mono (Nat.le_max_right _ _)

theorem symbol {x : String} (h : Source.tokens x = .ok [.symbol x, .endOfLine]) (hdot : x ≠ ".") :
    Readable (.symbol x) where
  legible := ⟨0, Source.lexical_of_mem_tokens h List.mem_cons_self⟩
  dotFree := rfl
  ne_dot := by simpa using hdot

theorem chain {vs : List Value} (h : ∀ v ∈ vs, Readable v) : Readable (.chain vs .nil) := by
  obtain ⟨room, hroom⟩ := exists_room h
  cases vs with
  | nil => exact ⟨⟨2, Nat.le_refl _⟩, rfl, by simp⟩
  | cons v vs =>
    obtain ⟨hv, hvs⟩ := List.forall_mem_cons.mp h
    obtain ⟨hvroom, hvsroom⟩ := List.forall_mem_cons.mp hroom
    refine ⟨⟨room + 2, .bracket hvroom hvsroom (Nat.zero_le _)⟩, ?_, by simp⟩
    exact dotFree_chain hv.dotFree (fun u hu => ⟨(hvs u hu).dotFree, (hvs u hu).ne_dot⟩) rfl rfl

theorem phrase {x : String} {operands : List Value}
    (hx : Source.tokens x = .ok [.symbol x, .endOfLine]) (hdot : x ≠ ".")
    (h : ∀ v ∈ operands, Readable v) : Readable (phrase x operands) :=
  chain (List.forall_mem_cons.mpr ⟨symbol hx hdot, h⟩)

end Readable

namespace Expr

theorem Legal.readable {names : List String} {e : Expr} (h : Legal names e)
    (hnames : ∀ x ∈ names, IsName x) : Readable e.form := by
  have hforms {es : List Expr} (ih : ∀ e ∈ es, Readable e.form) : ∀ v ∈ forms es, Readable v := by
    intro v hv
    obtain ⟨e, he, rfl⟩ := mem_forms.mp hv
    exact ih e he
  induction h with
  | integer hn => exact ⟨⟨0, hn⟩, rfl, by simp [form]⟩
  | boolean b => exact ⟨⟨0, trivial⟩, rfl, by simp [form]⟩
  | name hx => exact .symbol (hnames _ hx).1 (hnames _ hx).2.1
  | call op hes ih =>
    refine .phrase ?_ ?_ (hforms fun e he => ih e he hnames)
    · cases op <;> rfl
    · cases op <;> decide
  | guard _ _ ihcondition ihconsequent =>
    refine .phrase rfl (by decide) ?_
    simp [ihcondition hnames, ihconsequent hnames]
  | branch _ _ _ ihcondition ihconsequent ihalternative =>
    refine .phrase rfl (by decide) ?_
    simp [ihcondition hnames, ihconsequent hnames, ihalternative hnames]
  | conjunction _ ih => exact .phrase rfl (by decide) (hforms fun e he => ih e he hnames)
  | disjunction _ ih => exact .phrase rfl (by decide) (hforms fun e he => ih e he hnames)
  | @binding names bs body hbound _ _ ihbs ihbody =>
    have hentries : Readable (.chain (entries bs) .nil) := by
      refine .chain fun v hv => ?_
      obtain ⟨b, hb, rfl⟩ := mem_entries.mp hv
      have hx : Readable (.symbol b.1) := .symbol (hbound b hb).1 (hbound b hb).2.1
      exact .chain (by simp [hx, ihbs b hb hnames])
    have hinner : ∀ x ∈ bs.map Prod.fst ++ names, IsName x := by
      intro x hx
      rcases List.mem_append.mp hx with hx | hx
      · obtain ⟨b, hb, rfl⟩ := List.mem_map.mp hx
        exact hbound b hb
      · exact hnames x hx
    refine .phrase rfl (by decide) ?_
    simp [hentries, ihbody hinner]

def text (e : Expr) : String := String.ofList e.form.write

/-- A legal expression is spelled by its text. -/
theorem Legal.spells_text {e : Expr} (h : Legal [] e) :
    Spells e.text (e.form.tokens .alone ++ [.endOfLine]) e := by
  have hreadable := h.readable (by simp)
  obtain ⟨room, hroom⟩ := hreadable.legible
  refine ⟨Value.tokens_write hroom, room, ?_⟩
  rw [Source.meaningful_written]
  exact Derives.of_dotFree hroom hreadable.dotFree (by simp)

theorem Spells.of_readAll {source : String} {tokens : List Token} {e : Expr} {limit : Nat}
    (hcut : Source.tokens source = .ok tokens)
    (hread : Source.readAll limit source = .ok [e.form]) : Spells source tokens e := by
  obtain ⟨ts, hts, herror, hforms⟩ := Source.readAll_eq_ok_iff.mp hread
  obtain rfl : tokens = ts := Except.ok.inj (hcut.symm.trans hts)
  obtain ⟨room, hreads⟩ := Cursor.expressions_of_readAll herror
  rw [hforms] at hreads
  exact ⟨hcut, room, Source.derives_of_forms_singleton hreads⟩

end Expr

/-! ## Answers -/

/-- The answer to an expression of a meaning: the value of its datum, or a fault of the kind as
which its mistake is seen. A trace shows the value, which has to be written for that. -/
def Response (traced : Bool) (answer : Except RunError Value) : Except Mistake Datum → Prop
  | .ok d => answer =
      if traced && !d.isWritable then .error (.evaluation .tooManyDigits) else .ok d.value
  | .error m => ∃ f, answer = .error (.evaluation f) ∧ f.kind = m.seen

/-- An environment of a session that has its built-ins shows the empty scope. -/
theorem Shows.root {installation : Nat} {session : Session} {store : Store}
    (h : ShowsBuiltins installation (store.table session.root).get?) :
    Shows installation store.tables.size (fun _ => none) store session.env where
  builtins := h
  names _ _ hx := by cases hx
  below id hid := by
    obtain rfl : id = session.root := by simpa [Session.env, Env.tables] using hid
    exact Store.lt_size_of_get? (h.native .add)
  size := Nat.le_refl _

/-- The value of an expression is reported, unless it is too long for the trace. -/
theorem report_evaluated_cases (level : Level) (d : Datum) (s : EvalState) :
    ((level.traced && !d.isWritable) = true ∧
        level.report (.evaluated d.value) s = .error .tooManyDigits s) ∨
      ((level.traced && !d.isWritable) = false ∧
        ∃ s', level.report (.evaluated d.value) s = .ok () s') := by
  have hvalue : (Event.evaluated d.value).obstacle? level.depth =
      if d.isWritable then none else some .tooManyDigits := by
    rw [Event.obstacle?, Event.values, List.findSome?_singleton, Datum.obstacle?_value]
  unfold Level.report
  rw [hvalue]
  cases level.traced with
  | false => exact .inr ⟨rfl, s, rfl⟩
  | true =>
    cases d.isWritable with
    | true => exact .inr ⟨rfl, _, rfl⟩
    | false => exact .inl ⟨rfl, rfl⟩

section Run

variable {session : Session} {traced : Bool} {source : String} {world : World}

/-- A program that is one expression reports it, evaluates it, and reports its value. -/
theorem evaluateForms_of_readAll {e : Value} (traced : Bool)
    (hread : Source.readAll world.limit source = .ok [e]) :
    ∃ events, Session.evaluateForms (.ofDepth traced world.limit) session.env .nil [e]
      ⟨world.store, []⟩ = (do
        let v ← eval traced world.limit session.env e .nil
        Level.report (.ofDepth traced world.limit) (.evaluated v)
        pure v) ⟨world.store, events⟩ := by
  have hlegible := Source.legible_of_mem_readAll hread List.mem_cons_self
  have hwords : (Event.read e).obstacle? world.limit = none := by
    have hform := Value.obstacle?_of_legible hlegible (Nat.sub_le _ _) (by simp)
    simp [Event.obstacle?, Event.values, hform]
  have hreport : Gives (Level.report (.ofDepth traced world.limit) (.read e)) world.store ()
      world.store := .report fun _ => hwords
  obtain ⟨events, hreport⟩ := hreport []
  refine ⟨events, ?_⟩
  simp only [Session.evaluateForms, bind, EStateM.bind, hreport]
  rfl

/-- The answer to a program that is one expression, from what the expression evaluates to. -/
theorem run_responds_of_realizes {e : Expr}
    (hread : Source.readAll world.limit source = .ok [e.form])
    (h : Realizes (eval traced world.limit session.env e.form .nil) world.store
      (e.meaning fun _ => none) (Yields IsValueOf world.store)) :
    Response traced (session.run traced source world).answer (e.meaning fun _ => none) := by
  obtain ⟨events, hforms⟩ := evaluateForms_of_readAll traced hread
  rw [Session.run_of_readAll hread, hforms]
  have heval := h events
  simp only [bind, EStateM.bind]
  generalize eval traced world.limit session.env e.form .nil ⟨world.store, events⟩ = outcome
    at heval
  generalize e.meaning (fun _ => none) = expected at heval
  cases heval with
  | @ok d v s hd =>
    obtain rfl : v = d.value := hd.result
    rcases report_evaluated_cases (.ofDepth traced world.limit) d s with
      ⟨hshown, hreport⟩ | ⟨hshown, s', hreport⟩
    · simp only [hreport, Response, show (traced && !d.isWritable) = true from hshown, if_true]
      rfl
    · simp only [hreport, Response, show (traced && !d.isWritable) = false from hshown]
      rfl
  | @error m f s hf =>
    refine ⟨f, ?_, hf⟩
    cases f with
    | tooDeep => exact absurd hf.symm m.seen_ne_tooDeep
    | _ => rfl

/-- Without any depth, no expression is evaluated. -/
theorem run_of_limit_eq_zero {e : Value} (hread : Source.readAll world.limit source = .ok [e])
    (hlimit : world.limit = 0) : (session.run traced source world).answer = .error .tooDeep := by
  obtain ⟨events, hforms⟩ := evaluateForms_of_readAll traced hread
  rw [Session.run_of_readAll hread, hforms, hlimit]
  rfl

/-- A program that is nested too deeply to be read is not answered. -/
theorem run_of_tooDeep {tokens : List Token} (hcut : Source.tokens source = .ok tokens)
    (herror : ((Cursor.ofTokens tokens).readAll world.limit).error = some .tooDeep)
    (hforms : ((Cursor.ofTokens tokens).readAll world.limit).forms = []) :
    (session.run traced source world).answer = .error .tooDeep := by
  unfold Session.run
  rw [hcut]
  dsimp only
  rw [herror, hforms]
  rfl

/-- A text that spells a legal expression is answered with what the expression means, unless it is
nested too deeply. -/
theorem Expr.Spells.run_responds {e : Expr} {tokens : List Token}
    (hspells : Spells source tokens e) (he : Legal [] e) {installation : Nat}
    (hroot : ShowsBuiltins installation (world.store.table session.root).get?) :
    (world.limit ≤ 2 * tokens.length ∧
        (session.run traced source world).answer = .error .tooDeep) ∨
      Response traced (session.run traced source world).answer (e.meaning fun _ => none) := by
  have hreading := Cursor.readAll_of_expression (c := .ofTokens tokens) hspells.reads world.limit
  rcases hreading with ⟨herror, hforms⟩ | ⟨hle, herror, hforms⟩
  · have hread : Source.readAll world.limit source = .ok [e.form] :=
      Source.readAll_eq_ok_iff.mpr ⟨tokens, hspells.cut, herror, hforms⟩
    rcases Nat.eq_zero_or_pos world.limit with hlimit | hlimit
    · exact .inl ⟨by omega, run_of_limit_eq_zero hread hlimit⟩
    · have hlegible := Source.legible_of_mem_readAll hread List.mem_cons_self
      have hdenotes : Denotes installation (.ofDepth traced world.limit) session.env
          (fun _ => none) e := he.denotes hlegible (by omega) (by simp)
      exact .inr (run_responds_of_realizes hread (hdenotes _ _ (.root hroot)))
  · exact .inl ⟨hle, run_of_tooDeep hspells.cut herror hforms⟩

end Run

/-- **Pure programs.** In every session that still has its built-ins, the answer to a text that
spells a legal expression is what the expression means: the value of its datum, or a fault of the
kind of its first mistake. Three limits are all that comes in between.

* A text that is nested too deeply is not answered. One that has fewer tokens than half the limit
  on nesting never is.
* A mistake whose wording shows an integer of too many digits is seen as such an integer.
* A trace has to show the value.

Every legal expression is spelled by its own text. -/
theorem Expr.Legal.run_responds_meaning {e : Expr} (he : Legal [] e) {installation : Nat}
    {session : Session} {world : World}
    (hroot : ShowsBuiltins installation (world.store.table session.root).get?) (traced : Bool) :
    Spells e.text (e.form.tokens .alone ++ [.endOfLine]) e ∧
      ∀ source tokens, Spells source tokens e →
        (world.limit ≤ 2 * tokens.length ∧
            (session.run traced source world).answer = .error .tooDeep) ∨
          Response traced (session.run traced source world).answer (e.meaning fun _ => none) :=
  ⟨he.spells_text, fun _ _ hspells => hspells.run_responds he hroot⟩

/-- An expression that binds a name twice and then hides it. -/
def Expr.shadowed : Expr :=
  .binding [("x", .integer 1), ("x", .call .subtract [.integer 0, .integer 7])]
    (.binding [("x", .integer 2), ("y", .name "x")]
      (.branch (.call .less [.name "y", .integer 0]) (.call .divide [.name "y", .name "x"])
        (.call .add [.boolean true, .integer 1])))

/-- The last binding of a name counts, an initialiser does not see its neighbours, a division
rounds toward zero, and the branch that is not taken makes no mistake. -/
theorem Expr.Legal.run_responds_meaning_of_shadowing :
    Legal [] shadowed ∧ ((Session.register .initial).1.run false
      "(let ((x 1) (x (- 0 7))) ; twice\n (let ((x 2) (y x)) (if (< y 0) (/ y x) (+ #t 1))))"
      (Session.register .initial).2).answer = .ok (.integer (-3)) := by
  have hx : IsName "x" := ⟨rfl, by decide, by decide⟩
  have hy : IsName "y" := ⟨rfl, by decide, by decide⟩
  have hinteger (names : List String) : ∀ n ∈ [0, 1, 2, 7], Legal names (.integer n) := by
    simp only [List.forall_mem_cons]
    exact ⟨.integer (by decide +kernel), .integer (by decide +kernel), .integer (by decide +kernel),
      .integer (by decide +kernel), by simp⟩
  have hlegal : Legal [] shadowed := by
    refine .binding (by simp [hx]) ?_ (.binding (by simp [hx, hy]) ?_ (.branch ?_ ?_ ?_))
    · simp only [List.forall_mem_cons]
      exact ⟨hinteger _ _ (by simp), .call _ (by simp [hinteger]), by simp⟩
    · simp only [List.forall_mem_cons]
      exact ⟨hinteger _ _ (by simp), .name (by simp), by simp⟩
    · refine .call _ ?_
      simp only [List.forall_mem_cons]
      exact ⟨.name (by simp), hinteger _ _ (by simp), by simp⟩
    · refine .call _ ?_
      simp only [List.forall_mem_cons]
      exact ⟨.name (by simp), .name (by simp), by simp⟩
    · refine .call _ ?_
      simp only [List.forall_mem_cons]
      exact ⟨.boolean true, hinteger _ _ (by simp), by simp⟩
  have hroot : ShowsBuiltins 0 ((Session.register .initial).2.store.table
      (Session.register .initial).1.root).get? := ShowsBuiltins.self 0
  obtain ⟨tokens, hcut, hlength⟩ : ∃ tokens, Source.tokens
      "(let ((x 1) (x (- 0 7))) ; twice\n (let ((x 2) (y x)) (if (< y 0) (/ y x) (+ #t 1))))" =
        .ok tokens ∧ tokens.length = 50 := by
    exact ⟨_, rfl, rfl⟩
  have hread : Source.readAll 1000
      "(let ((x 1) (x (- 0 7))) ; twice\n (let ((x 2) (y x)) (if (< y 0) (/ y x) (+ #t 1))))" =
        .ok [shadowed.form] := by rfl
  rcases (hlegal.run_responds_meaning hroot false).2 _ tokens (.of_readAll hcut hread) with
    ⟨hlimit, -⟩ | hvalue
  · rw [hlength] at hlimit
    exact absurd hlimit (by decide)
  · exact ⟨hlegal, hvalue⟩

/-! ## Conditions of too many digits -/

def Expr.squareBranch (n : Int) : Expr :=
  .branch (.call .multiply [.integer n, .integer n]) (.integer 1) (.integer 2)

theorem Expr.legal_squareBranch {n : Int} (hn : Text.isWritable n = true) :
    Legal [] (squareBranch n) := by
  refine .branch (.call _ ?_) (.integer (by decide +kernel)) (.integer (by decide +kernel))
  simp only [List.forall_mem_cons]
  exact ⟨.integer hn, .integer hn, by simp⟩

theorem Expr.meaning_squareBranch (scope : Scope) (n : Int) :
    (squareBranch n).meaning scope = .error (.condition (.integer (n * n))) := by
  have hproduct : product [n, n] = n * n := by simp [product]
  rw [← hproduct]
  rfl

theorem eq_tooManyDigits_of_kind {f : Fault} (h : f.kind = .tooManyDigits) :
    f = .tooManyDigits := by
  cases f with
  | tooManyDigits => rfl
  | _ => cases h

/-- A condition that cannot be written is seen as an integer that has too many digits. -/
theorem run_squareBranch {n : Int} (hn : Text.isWritable n = true)
    (hsquare : Text.isWritable (n * n) = false) {installation : Nat} {session : Session}
    {world : World} (hroot : ShowsBuiltins installation (world.store.table session.root).get?)
    (hlimit : 22 < world.limit) (traced : Bool) :
    (session.run traced (Expr.squareBranch n).text world).answer =
      .error (.evaluation .tooManyDigits) := by
  have hlegal := Expr.legal_squareBranch hn
  have hlength : ((Expr.squareBranch n).form.tokens .alone ++ [Token.endOfLine]).length = 11 := rfl
  rcases hlegal.spells_text.run_responds hlegal hroot with ⟨hle, -⟩ | hresponse
  · rw [hlength] at hle
    omega
  · rw [Expr.meaning_squareBranch] at hresponse
    obtain ⟨f, hanswer, hkind⟩ := hresponse
    have hseen : (Mistake.condition (.integer (n * n))).seen = .tooManyDigits := by
      simp [Mistake.seen, Mistake.isWritable, Datum.isWritable, hsquare]
    rw [hanswer, eq_tooManyDigits_of_kind (hkind.trans hseen)]

/-- The square of an integer of 2201 digits is no condition, which is a mistake of type, but it is
seen as an integer that has too many digits to be written. -/
theorem run_squareBranch_of_many_digits :
    let e := Expr.squareBranch (Int.ofNat (Nat.pow 10 2200))
    Expr.Legal [] e ∧
      (∃ m, e.meaning (fun _ => none) = .error m ∧ m.kind = .type) ∧
      ((Session.register .initial).1.run false e.text (Session.register .initial).2).answer =
        .error (.evaluation .tooManyDigits) := by
  have hlarge : Text.isWritable (Int.ofNat (Nat.pow 10 2200)) = true := by decide +kernel
  have hsquare : Text.isWritable (Int.ofNat (Nat.pow 10 2200) * Int.ofNat (Nat.pow 10 2200)) =
      false := by decide +kernel
  refine ⟨Expr.legal_squareBranch hlarge, ⟨_, Expr.meaning_squareBranch _ _, rfl⟩, ?_⟩
  exact run_squareBranch hlarge hsquare (ShowsBuiltins.self 0) (by decide) false

end MiniScheme.Calculus
