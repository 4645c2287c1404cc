import MiniScheme.Proofs.Eval.Locality
import MiniScheme.Proofs.Reader.Continuation
import MiniScheme.Proofs.Session.Program
import MiniScheme.Proofs.Token.Lines

/-!
# Running joined texts

A text is cut into tokens as a whole, and then its expressions are read and evaluated in turn. So a
text of two parts, joined by a line feed, does what the parts do one after the other: the second
part starts where the first one ends, or is not reached if the first one fails. Only an expression
that the first part leaves open may be closed by the second one.

## Main definitions

* `after`: a computation after some events.

## Main statements

* `eval_after`: what was reported before makes no difference.
* `Session.evaluateForms_append`, `Session.evaluateForms_after`: evaluating expressions and then
  others, whatever was reported before.
* `Session.run_join`: running a text of two parts.
-/

namespace MiniScheme

/-! ## Evaluating -/

def after {α : Type} (events : List Event) :
    EStateM.Result Fault EvalState α → EStateM.Result Fault EvalState α
  | .ok v s => .ok v { s with events := s.events ++ events }
  | .error f s => .error f { s with events := s.events ++ events }

@[simp] theorem finalAnswer_after {α : Type} (events : List Event)
    (result : EStateM.Result Fault EvalState α) :
    finalAnswer (after events result) = finalAnswer result := by
  cases result <;> rfl

@[simp] theorem finalState_after {α : Type} (events : List Event)
    (result : EStateM.Result Fault EvalState α) :
    finalState (after events result) =
      { finalState result with events := (finalState result).events ++ events } := by
  cases result <;> rfl

theorem Store.ext_table {s s' : Store} (hsize : s.tables.size = s'.tables.size)
    (htable : ∀ id, s.table id = s'.table id) (hinst : s.installations = s'.installations) :
    s = s' := by
  obtain ⟨tables, installations⟩ := s
  obtain ⟨tables', installations'⟩ := s'
  dsimp only at hsize hinst
  subst hinst
  congr 1
  refine Array.ext hsize fun i hi hi' => ?_
  simpa [table, hi, hi'] using htable i

namespace Correspondence

variable {store : Store} {events : List Event}

def later (store : Store) (events : List Event) : Correspondence :=
  .diagonal ⟨store, []⟩ ⟨store, events⟩ (fun _ => True) rfl fun _ => trivial

theorem same_later (v : Value) : v.Same (later store events).toRenaming v :=
  Renaming.same_on fun _ => trivial

theorem env_later (env : Env) : env.Same (later store events).toRenaming env := by
  have hplaces (ids : List TableId) : List.Forall₂ (later store events).place ids ids :=
    List.forall₂_same.mpr fun _ _ => ⟨rfl, trivial⟩
  exact ⟨hplaces env.inner, rfl, trivial⟩

theorem holds_later : (later store events).Holds ⟨store, []⟩ ⟨store, events⟩ :=
  holds_start (Store.matches_on (fun _ => rfl) fun _ _ _ => trivial)

/-- What goes alike without events and after some events ends alike, with these events before. -/
theorem eq_after {result result' : EStateM.Result Fault EvalState Value}
    (h : (later store events).Ends (Value.Same (later store events).toRenaming) result result') :
    result' = after events result := by
  have hfixes : (later store events).toRenaming.Fixes := Renaming.fixes_on _
  have hstate : ∀ {s s'}, (later store events).Holds s s' →
      s' = ⟨s.store, s.events ++ events⟩ := by
    intro s s' hs
    obtain ⟨k, hk, hk'⟩ := hs.added
    have hstore : s'.store = s.store := by
      refine Store.ext_table (hk'.trans hk.symm) (fun id => ?_)
        (hs.installations_right.trans hs.installations_left.symm)
      exact ((hs.tables id id ⟨rfl, trivial⟩).eq_of_fixes hfixes).symm
    obtain ⟨new, new', hnew, hnew', hsame⟩ := hs.events
    have heq : List.Forall₂ Eq new new' :=
      hsame.imp fun _ _ he => Event.Same.eq_of_fixes he hfixes
    rw [List.forall₂_eq_eq_eq] at heq
    have hevents : s'.events = s.events ++ events := by
      rw [hnew, hnew', ← heq]
      change new ++ events = new ++ [] ++ events
      rw [List.append_nil]
    rw [← hstore, ← hevents]
  cases h with
  | ok hs hv => rw [hstate hs, hv.eq_of_fixes hfixes]; rfl
  | error hs hf => rw [hstate hs, hf.eq_of_fixes hfixes]; rfl

end Correspondence

/-- What was reported before makes no difference to the evaluation of an expression. -/
theorem eval_after (traced : Bool) (depth : Nat) (env : Env) (v operands : Value) (store : Store)
    (events : List Event) :
    eval traced depth env v operands ⟨store, events⟩ =
      after events (eval traced depth env v operands ⟨store, []⟩) := by
  let c := Correspondence.later store events
  exact Correspondence.eq_after (c.respects traced depth (Correspondence.env_later env)
    (Correspondence.same_later v) (Correspondence.same_later operands) _ _
    Correspondence.holds_later)

namespace Session

variable {level : Level} {env : Env}

theorem evaluateForms_append (last : Value) (es fs : List Value) :
    evaluateForms level env last (es ++ fs) =
      evaluateForms level env last es >>= fun v => evaluateForms level env v fs := by
  induction es generalizing last with
  | nil => rfl
  | cons e es ih =>
    simp only [List.cons_append, evaluateForms, bind_assoc, ih]

/-- The value to start from is the answer if there are no expressions, and otherwise it makes no
difference. -/
theorem evaluateForms_last (last : Value) (es : List Value) (s : EvalState) :
    finalState (evaluateForms level env last es s) =
        finalState (evaluateForms level env .nil es s) ∧
      finalAnswer (evaluateForms level env last es s) =
        (finalAnswer (evaluateForms level env .nil es s)).map
          fun v => if es = [] then last else v := by
  cases es with
  | nil => exact ⟨rfl, rfl⟩
  | cons e es =>
    refine ⟨rfl, ?_⟩
    change _ = Except.map (fun v => if e :: es = [] then last else v)
      (finalAnswer (evaluateForms level env last (e :: es) s))
    generalize finalAnswer (evaluateForms level env last (e :: es) s) = answer
    cases answer with
    | error f => rfl
    | ok v => rfl

/-- What was reported before makes no difference to an evaluation. -/
theorem evaluateForms_after (traced : Bool) (limit : Nat) (env : Env) (last : Value)
    (es : List Value) (store : Store) (events : List Event) :
    evaluateForms (.ofDepth traced limit) env last es ⟨store, events⟩ =
      after events (evaluateForms (.ofDepth traced limit) env last es ⟨store, []⟩) := by
  let c := Correspondence.later store events
  exact Correspondence.eq_after <| Correspondence.Respects.evaluateForms (c.respects traced limit)
    (Correspondence.env_later env) (Correspondence.same_later last)
    (List.forall₂_same.mpr fun e _ => Correspondence.same_later e) _ _ Correspondence.holds_later

/-! ## Running -/

theorem forms_of_tokens {limit : Nat} {source : String} {ts : List Token}
    (h : Source.tokens source = .ok ts) :
    forms limit source = ((Cursor.ofTokens ts).readAll limit).forms := by
  rw [forms, h]

theorem mistake?_of_tokens {limit : Nat} {source : String} {ts : List Token}
    (h : Source.tokens source = .ok ts) :
    mistake? limit source = ((Cursor.ofTokens ts).readAll limit).error.map .ofReadError := by
  rw [mistake?, h]

theorem reply_eq_ok {mistake : Option RunError} {answer : Except Fault Value} {v : Value}
    (h : reply mistake answer = .ok v) : mistake = none ∧ answer = .ok v := by
  cases answer with
  | error f => cases h
  | ok w =>
    cases mistake with
    | some e => cases h
    | none =>
      cases h
      exact ⟨rfl, rfl⟩

theorem reply_map (mistake : Option RunError) (answer : Except Fault Value) (f : Value → Value) :
    reply mistake (answer.map f) = (reply mistake answer).map f := by
  cases answer with
  | error e => rfl
  | ok v => cases mistake <;> rfl

variable {session : Session} {traced : Bool} {world : World} {a b : String} {us vs : List Token}

/-- The expressions of a text of two parts, and what is wrong with it. -/
theorem continues_join (ha : Source.tokens a = .ok us) (hb : Source.tokens b = .ok vs)
    (limit : Nat) :
    ∃ ts, Source.tokens (a ++ "\n" ++ b) = .ok ts ∧
      Cursor.Reading.Continues ((Cursor.ofTokens us).readAll limit)
        ((Cursor.ofTokens vs).readAll limit) ((Cursor.ofTokens ts).readAll limit) := by
  obtain ⟨extra, hextra, htokens⟩ := Source.tokens_join a b
  exact ⟨_, (htokens _).mpr ⟨us, vs, ha, hb, rfl⟩, Cursor.readAll_append limit us vs hextra⟩

/-- If the first part has an answer, the second one starts where the first one ends. -/
theorem run_join_of_ok (ha : Source.tokens a = .ok us) (hb : Source.tokens b = .ok vs) {v : Value}
    (hok : (session.run traced a world).answer = .ok v) :
    session.run traced (a ++ "\n" ++ b) world =
      { answer := (session.run traced b (session.run traced a world).world).answer.map
          fun w => if forms world.limit b = [] then v else w
        events := (session.run traced a world).events ++
          (session.run traced b (session.run traced a world).world).events
        world := (session.run traced b (session.run traced a world).world).world } := by
  obtain ⟨ts, hts, hcontinues⟩ := continues_join ha hb world.limit
  rw [run_eq] at hok
  obtain ⟨hmistake, hanswer⟩ := reply_eq_ok hok
  rw [mistake?_of_tokens ha, Option.map_eq_none_iff] at hmistake
  obtain ⟨hforms, herror⟩ := hcontinues.complete hmistake
  rw [← forms_of_tokens hts, ← forms_of_tokens ha, ← forms_of_tokens hb] at hforms
  have hmistake' : mistake? world.limit (a ++ "\n" ++ b) = mistake? world.limit b := by
    rw [mistake?_of_tokens hts, mistake?_of_tokens hb, herror]
  cases hfirst : session.evaluated traced a world.limit ⟨world.store, []⟩ with
  | error f s =>
    rw [hfirst] at hanswer
    cases hanswer
  | ok w s =>
    rw [hfirst] at hanswer
    obtain rfl : w = v := Except.ok.inj hanswer
    have hevaluated : session.evaluated traced (a ++ "\n" ++ b) world.limit ⟨world.store, []⟩ =
        after s.events (evaluateForms (.ofDepth traced world.limit) session.env w
          (forms world.limit b) ⟨s.store, []⟩) := by
      rw [evaluated, hforms, evaluateForms_append, ← evaluateForms_after]
      change EStateM.bind (session.evaluated traced a world.limit) _ _ = _
      rw [EStateM.bind, hfirst]
    obtain ⟨hstate, hlast⟩ := @evaluateForms_last (.ofDepth traced world.limit) session.env w
      (forms world.limit b) ⟨s.store, []⟩
    simp only [run_eq, hevaluated, hfirst, hmistake', finalAnswer_after, finalState_after, hstate,
      hlast, reply_map, List.reverse_append]
    rfl

/-- If the first part fails, and not because an expression is left open, the second one is not
reached. -/
theorem run_join_of_error (ha : Source.tokens a = .ok us) (hb : Source.tokens b = .ok vs)
    {e : RunError} (herror : (session.run traced a world).answer = .error e)
    (hopen : ∀ kind, e ≠ .source (.unreadable (.endOfInput kind))) :
    session.run traced (a ++ "\n" ++ b) world = session.run traced a world := by
  obtain ⟨ts, hts, hcontinues⟩ := continues_join ha hb world.limit
  rw [run_eq] at herror
  cases hfirst : session.evaluated traced a world.limit ⟨world.store, []⟩ with
  | error f s =>
    -- the fault comes before anything that the second part could add
    obtain ⟨more, hmore⟩ := hcontinues.forms
    rw [← forms_of_tokens hts, ← forms_of_tokens ha] at hmore
    have hevaluated : session.evaluated traced (a ++ "\n" ++ b) world.limit ⟨world.store, []⟩ =
        .error f s := by
      rw [evaluated, ← hmore, evaluateForms_append]
      change EStateM.bind (session.evaluated traced a world.limit) _ _ = _
      rw [EStateM.bind, hfirst]
    rw [run_eq, run_eq, hevaluated, hfirst]
    rfl
  | ok v s =>
    obtain ⟨e', he', rfl⟩ : ∃ e', ((Cursor.ofTokens us).readAll world.limit).error = some e' ∧
        RunError.ofReadError e' = e := by
      rw [hfirst, mistake?_of_tokens ha] at herror
      cases hread : ((Cursor.ofTokens us).readAll world.limit).error with
      | none =>
        rw [hread] at herror
        cases herror
      | some e' =>
        rw [hread] at herror
        exact ⟨e', rfl, Except.error.inj herror⟩
    have hkind (kind : Option Token.Kind) : e' ≠ .endOfInput kind := by
      rintro rfl
      exact hopen kind rfl
    obtain ⟨hforms, hwhole⟩ := hcontinues.failed he' hkind
    rw [run_eq, run_eq, evaluated, evaluated, mistake?_of_tokens hts, mistake?_of_tokens ha,
      forms_of_tokens hts, forms_of_tokens ha, hforms, hwhole, he']

/-- A text of two parts, joined by a line feed, does what its parts do one after the other.

If both can be cut into tokens and the first one has an answer, the second one goes on from there;
the answer of the first one is the answer of both if the second one has no expressions. If the first
one fails, and not because an expression is left open at its end, then both fail in the same way at
the same place. And if one of the parts cannot be cut into tokens, nothing is evaluated. -/
theorem run_join (session : Session) (traced : Bool) (world : World) (a b : String) :
    (∀ us vs, Source.tokens a = .ok us → Source.tokens b = .ok vs →
      (∀ v, (session.run traced a world).answer = .ok v →
        session.run traced (a ++ "\n" ++ b) world =
          { answer := (session.run traced b (session.run traced a world).world).answer.map
              fun w => if forms world.limit b = [] then v else w
            events := (session.run traced a world).events ++
              (session.run traced b (session.run traced a world).world).events
            world := (session.run traced b (session.run traced a world).world).world }) ∧
      ∀ e, (session.run traced a world).answer = .error e →
        (∀ kind, e ≠ .source (.unreadable (.endOfInput kind))) →
        session.run traced (a ++ "\n" ++ b) world = session.run traced a world) ∧
    ∀ e, Source.tokens a = .error e ∨ Source.tokens b = .error e →
      ∃ e', session.run traced (a ++ "\n" ++ b) world =
        ⟨.error (.source (.unterminated e')), [], world⟩ := by
  refine ⟨fun us vs ha hb => ⟨fun v hok => ?_, fun e herror hopen => ?_⟩, fun e he => ?_⟩
  · exact run_join_of_ok ha hb hok
  · exact run_join_of_error ha hb herror hopen
  · obtain ⟨e', he'⟩ := Source.tokens_join_error he
    exact ⟨e', by rw [run, he']⟩

/-- A comment at the end of the first part does not swallow the second one, whose last expression
fails after the others have taken effect. -/
theorem run_join_of_comment :
    let world := (register ⟨.empty, 100⟩).2
    let session := (register ⟨.empty, 100⟩).1
    let a := "(define x 1) ; one"
    let b := "(set! x (+ x 1)) (car x)"
    (session.run false a world).answer = .ok (.integer 1) ∧
      (session.run false (a ++ "\n" ++ b) world).answer =
        (session.run false b (session.run false a world).world).answer.map (fun w =>
          if forms world.limit b = [] then .integer 1 else w) ∧
      (session.run false (a ++ "\n" ++ b) world).world =
        (session.run false b (session.run false a world).world).world ∧
      session.run false (b ++ "\n" ++ a) world = session.run false b world ∧
      ∃ e, session.run false (a ++ "\n" ++ "\"") world =
        ⟨.error (.source (.unterminated e)), [], world⟩ := by
  intro world session a b
  have ha : Source.tokens "(define x 1) ; one" = .ok [.openParen, .symbol "define", .symbol "x",
      .integer "1", .closeParen, .endOfLine] := by rfl
  have hb : Source.tokens "(set! x (+ x 1)) (car x)" = .ok [.openParen, .symbol "set!", .symbol "x",
      .openParen, .symbol "+", .symbol "x", .integer "1", .closeParen, .closeParen, .openParen,
      .symbol "car", .symbol "x", .closeParen, .endOfLine] := by rfl
  have hquote : Source.tokens "\"" = .error (.unterminated ⟨1, 1, "\""⟩) := by rfl
  have hfirst : ((register ⟨.empty, 100⟩).1.run false "(define x 1) ; one"
      (register ⟨.empty, 100⟩).2).answer = .ok (.integer 1) := by decide +kernel
  have hfails : ((register ⟨.empty, 100⟩).1.run false "(set! x (+ x 1)) (car x)"
      (register ⟨.empty, 100⟩).2).answer = .error (.evaluation (.unresolved "x")) := by
    decide +kernel
  have hjoined := ((run_join session false world a b).1 _ _ ha hb).1 _ hfirst
  refine ⟨hfirst, by rw [hjoined], by rw [hjoined], ?_, ?_⟩
  · exact ((run_join session false world b a).1 _ _ hb ha).2 _ hfails fun kind h => by cases h
  · exact (run_join session false world a "\"").2 _ (.inr hquote)

end Session

end MiniScheme
