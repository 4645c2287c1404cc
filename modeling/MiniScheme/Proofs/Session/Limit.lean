import MiniScheme.Proofs.Eval.Depth
import MiniScheme.Proofs.Session.Joined

/-!
# Runs with a higher limit

The limit of a world bounds how deep reading, evaluation, writing and comparing may be nested. A run
that does not fail for want of depth does the same with every higher limit: the answer or the error
is the same, and so are the events and the store that it leaves behind.

A text that is nested too deeply somewhere still has its expressions before this place evaluated,
and if one of them faults, the run never comes to the place. With a higher limit more is read, but
the same fault comes first.

## Main statements

* `Cursor.forms_of_le`: a higher limit reads at least as many expressions.
* `Session.run_of_limit_le`: a higher limit changes no answer.
-/

namespace MiniScheme

/-! ## Reading -/

/-- A higher limit reads at least as many expressions. -/
theorem Cursor.forms_of_le {limit limit' : Nat} (hle : limit ≤ limit') (state : Reader.State)
    (index : Nat) (tokens : List Token) :
    (readAllFrom limit state index tokens).forms <+:
      (readAllFrom limit' state index tokens).forms := by
  fun_induction readAllFrom limit state index tokens with
  | case1 state index => exact List.nil_prefix
  | case2 state index rest ih => exact ih
  | case3 state index t rest hline next hfeed ih =>
    rw [readAllFrom_cons _ _ _ hline, Reader.feed_of_le hle (by simp [hfeed]), hfeed]
    exact ih
  | case4 state index t rest hline v hfeed ih =>
    rw [readAllFrom_cons _ _ _ hline, Reader.feed_of_le hle (by simp [hfeed]), hfeed]
    exact (List.prefix_cons_inj v).mpr ih
  | case5 | case6 => exact List.nil_prefix

namespace Session

variable {limit limit' : Nat} {source : String}

theorem forms_of_le (hle : limit ≤ limit') (source : String) :
    forms limit source <+: forms limit' source := by
  cases htokens : Source.tokens source with
  | error e =>
    rw [forms, htokens]
    exact List.nil_prefix
  | ok tokens =>
    rw [forms_of_tokens htokens, forms_of_tokens htokens]
    exact Cursor.forms_of_le hle .initial 0 tokens

/-- A text that is not nested too deeply is read in the same way with a higher limit. -/
theorem mistake?_of_le (hle : limit ≤ limit') (h : mistake? limit source ≠ some .tooDeep) :
    mistake? limit' source = mistake? limit source ∧ forms limit' source = forms limit source := by
  cases htokens : Source.tokens source with
  | error e => simp [mistake?, forms, htokens]
  | ok tokens =>
    have hdeep : ((Cursor.ofTokens tokens).readAll limit).error ≠ some .tooDeep := by
      intro hdeep
      rw [mistake?_of_tokens htokens, hdeep] at h
      exact h rfl
    have hsame : (Cursor.ofTokens tokens).readAll limit' = (Cursor.ofTokens tokens).readAll limit :=
      Cursor.readAllFrom_of_le hle hdeep
    rw [mistake?_of_tokens htokens, mistake?_of_tokens htokens, forms_of_tokens htokens,
      forms_of_tokens htokens, hsame]
    exact ⟨rfl, rfl⟩

/-! ## Running -/

/-- The expressions that are read with one limit are evaluated in the same way with a higher one. -/
theorem evaluateForms_of_le (session : Session) (traced : Bool) (hle : limit ≤ limit')
    (es : List Value) {s : EvalState} {result : EStateM.Result Fault EvalState Value}
    (hresult : evaluateForms (.ofDepth traced limit) session.env .nil es s = result)
    (hdeep : finalAnswer result ≠ .error .tooDeep) :
    evaluateForms (.ofDepth traced limit') session.env .nil es s = result := by
  rcases (Level.linked_of_le traced hle).evaluateForms session.env .nil es s with
    ⟨s', hs'⟩ | hsame
  · rw [hresult] at hs'
    rw [hs'] at hdeep
    exact absurd rfl hdeep
  · exact hsame.trans hresult

/-- **Limits.** A run that does not end for want of depth ends in the same way with every higher
limit, with the same answer or error, the same events and the same store. -/
theorem run_of_limit_le (session : Session) (traced : Bool) (source : String) (store : Store)
    {limit limit' : Nat} (hle : limit ≤ limit')
    (h : (session.run traced source ⟨store, limit⟩).answer ≠ .error .tooDeep) :
    session.run traced source ⟨store, limit'⟩ =
      { session.run traced source ⟨store, limit⟩ with
        world := ⟨(session.run traced source ⟨store, limit⟩).world.store, limit'⟩ } := by
  rw [run_eq] at h
  simp only [run_eq]
  obtain ⟨more, hmore⟩ := forms_of_le hle source
  cases hfirst : session.evaluated traced source limit ⟨store, []⟩ with
  | error f s =>
    -- the fault comes before anything that is read with the higher limit only
    rw [hfirst] at h
    have hdeep : f ≠ .tooDeep := by
      rintro rfl
      exact h rfl
    have hsame : session.evaluated traced source limit' ⟨store, []⟩ = .error f s := by
      rw [evaluated, ← hmore, evaluateForms_append]
      simp only [bind, EStateM.bind]
      rw [evaluateForms_of_le session traced hle _ hfirst (by simpa [finalAnswer] using hdeep)]
    rw [hsame]
    rfl
  | ok v s =>
    rw [hfirst] at h
    have hread : mistake? limit source ≠ some .tooDeep := by
      intro hmistake
      rw [hmistake] at h
      exact h rfl
    obtain ⟨hmistake, hforms⟩ := mistake?_of_le hle hread
    have hsame : session.evaluated traced source limit' ⟨store, []⟩ = .ok v s := by
      rw [evaluated, hforms]
      exact evaluateForms_of_le session traced hle _ hfirst (by simp [finalAnswer])
    rw [hsame, hmistake]

/-- A run that faults before an expression that is nested too deeply faults in the same way when
this expression can be read; with still less depth it would fail for want of it. -/
theorem run_of_limit_le_of_fault :
    let world := (register ⟨.empty, 9⟩).2
    let source := "(define x 1) (car x) ((((((x))))))"
    ((⟨0⟩ : Session).run true source world).answer =
        .error (.evaluation (.notAPair .car (.integer 1))) ∧
      (∀ limit, 9 ≤ limit →
        (⟨0⟩ : Session).run true source { world with limit } =
          { (⟨0⟩ : Session).run true source world with
            world := ⟨((⟨0⟩ : Session).run true source world).world.store, limit⟩ }) ∧
      ((⟨0⟩ : Session).run true source { world with limit := 2 }).answer = .error .tooDeep := by
  intro world source
  have hfault : ((⟨0⟩ : Session).run true source ⟨world.store, 9⟩).answer =
      .error (.evaluation (.notAPair .car (.integer 1))) := by decide +kernel
  refine ⟨hfault, fun limit hle => ?_, by decide +kernel⟩
  exact run_of_limit_le ⟨0⟩ true source world.store hle (by simp [hfault])

end Session

end MiniScheme
