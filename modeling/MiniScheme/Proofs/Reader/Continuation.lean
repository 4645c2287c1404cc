import MiniScheme.Proofs.Reader.Acceptance

/-!
# Reading on with more tokens

What is read from some tokens does not depend on the tokens after them, as far as expressions are
complete or a token was refused. Only where the tokens end inside an expression can others go on
with it, and then some of them complete it: brackets for the lists that are open, after an atom
where an expression is missing. So the tokens that begin a readable text are those that are read as
a whole or end too early.

## Main definitions

* `Cursor.Reading.Continues`: how the reading of tokens goes on with more tokens.
* `Reader.State.completion`: tokens that complete what is open.

## Main statements

* `Cursor.readAll_append`: reading tokens and then others.
* `Cursor.readAllFrom_append_open`: going on where the tokens end inside an expression.
* `Cursor.readAll_endOfInput_iff`: tokens end too early exactly if more tokens can help.
-/

namespace MiniScheme

/-! ## Tokens after tokens -/

namespace Cursor

open Reader

structure Reading.Continues (first second whole : Reading) : Prop where
  forms : first.forms <+: whole.forms
  complete : first.error = none →
    whole.forms = first.forms ++ second.forms ∧ whole.error = second.error
  failed : ∀ {e}, first.error = some e → (∀ kind, e ≠ .endOfInput kind) →
    whole.forms = first.forms ∧ whole.error = some e

theorem Reading.Continues.cons {first second whole : Reading} (h : Continues first second whole)
    (v : Value) : Continues (first.cons v) second (whole.cons v) where
  forms := List.prefix_cons_inj v |>.mpr h.forms
  complete hnone := by
    obtain ⟨hforms, herror⟩ := h.complete hnone
    exact ⟨congrArg (v :: ·) hforms, herror⟩
  failed hsome hkind := by
    obtain ⟨hforms, herror⟩ := h.failed hsome hkind
    exact ⟨congrArg (v :: ·) hforms, herror⟩

/-- A reading that fails does not look at more tokens. -/
theorem Reading.Continues.of_error (e : ReadError) (second : Reading) (c c' : Cursor) :
    Continues ⟨[], some e, c⟩ second ⟨[], some e, c'⟩ where
  forms := List.prefix_refl _
  complete hnone := by cases hnone
  failed hsome _ := ⟨rfl, hsome⟩

theorem exists_endOfInput (state : State) : ∃ kind, state.endOfInput = .endOfInput kind := by
  fun_cases State.endOfInput state with
  | case1 => exact ⟨_, rfl⟩
  | case2 => exact ⟨_, rfl⟩
  | case3 => exact ⟨_, rfl⟩

/-- What is read does not depend on how many tokens stand before. -/
theorem readAllFrom_index (limit : Nat) (state : State) (index index' : Nat) (ts : List Token) :
    (readAllFrom limit state index ts).forms = (readAllFrom limit state index' ts).forms ∧
      (readAllFrom limit state index ts).error = (readAllFrom limit state index' ts).error := by
  obtain ⟨hforms, herror⟩ := readAllFrom_meaningful limit state index 0 ts
  obtain ⟨hforms', herror'⟩ := readAllFrom_meaningful limit state index' 0 ts
  exact ⟨hforms.trans hforms'.symm, herror.trans herror'.symm⟩

theorem readAllFrom_append (limit : Nat) (state : State) (index : Nat) (ts us : List Token) :
    Reading.Continues (readAllFrom limit state index ts) (readAllFrom limit .initial 0 us)
      (readAllFrom limit state index (ts ++ us)) := by
  fun_induction readAllFrom limit state index ts with
  | case1 state index =>
    refine ⟨List.nil_prefix, fun hnone => ?_, fun hsome hkind => ?_⟩
    · obtain rfl : state = .initial := by
        by_cases hstate : state = .initial
        · exact hstate
        · simp [hstate] at hnone
      exact readAllFrom_index limit .initial index 0 us
    · obtain ⟨kind, hend⟩ := exists_endOfInput state
      split at hsome
      · cases hsome
      · exact absurd ((Option.some.inj hsome).symm.trans hend) (hkind kind)
  | case2 state index rest ih => exact ih
  | case3 state index t rest hline next hfeed ih =>
    rw [List.cons_append, readAllFrom_cons _ _ _ hline, hfeed]
    exact ih
  | case4 state index t rest hline v hfeed ih =>
    rw [List.cons_append, readAllFrom_cons _ _ _ hline, hfeed]
    exact ih.cons v
  | case5 state index t rest hline e hfeed | case6 state index t rest hline e hfeed =>
    rw [List.cons_append, readAllFrom_cons _ _ _ hline, hfeed]
    exact .of_error e _ _ _

/-- Reading tokens and then others, with or without the end of an empty line between them. -/
theorem readAll_append (limit : Nat) (ts us : List Token) {extra : List Token}
    (hextra : extra = [] ∨ extra = [.endOfLine]) :
    Reading.Continues ((ofTokens ts).readAll limit) ((ofTokens us).readAll limit)
      ((ofTokens (ts ++ (extra ++ us))).readAll limit) := by
  have hsecond : ((ofTokens (extra ++ us)).readAll limit).forms =
        ((ofTokens us).readAll limit).forms ∧
      ((ofTokens (extra ++ us)).readAll limit).error = ((ofTokens us).readAll limit).error := by
    rcases hextra with rfl | rfl
    · exact ⟨rfl, rfl⟩
    · exact readAllFrom_index limit .initial 1 0 us
  have happend := readAllFrom_append limit .initial 0 ts (extra ++ us)
  refine ⟨happend.forms, fun hnone => ?_, happend.failed⟩
  obtain ⟨hforms, herror⟩ := happend.complete hnone
  exact ⟨hforms.trans (congrArg _ hsecond.1), herror.trans hsecond.2⟩

end Cursor

/-! ## Completing what is open -/

namespace Reader

/-- A token is never refused because the tokens end. -/
theorem feed_ne_endOfInput {limit : Nat} {state : State} {t : Token} {e : ReadError}
    {consumed : Bool} (h : feed limit state t = .fail e consumed) (kind : Option Token.Kind) :
    e ≠ .endOfInput kind := by
  rintro rfl
  have hpush (o : Open) (stack : List Open) :
      push limit o stack ≠ .fail (.endOfInput kind) consumed := by
    unfold push
    split <;> simp
  unfold feed at h
  split at h
  · split at h
    · exact deliver_ne_fail _ _ _ _ h
    · cases h
  · exact deliver_ne_fail _ _ _ _ h
  · cases h
  · unfold feedExpression at h
    split at h
    · exact hpush _ _ h
    · exact hpush _ _ h
    · exact deliver_ne_fail _ _ _ _ h
    · split at h
      · exact deliver_ne_fail _ _ _ _ h
      · cases h
    · exact deliver_ne_fail _ _ _ _ h
    · exact deliver_ne_fail _ _ _ _ h
    · cases h

/-- The brackets that are missing once the innermost open expression has got its value. -/
def closers : List Open → List Token
  | [] => []
  | .quote :: stack => closers stack
  | .list _ :: stack | .dotted _ :: stack => .closeParen :: closers stack

def State.completion : State → List Token
  | .inside (.list _ :: stack) => .closeParen :: closers stack
  | .inside stack => .string "" :: closers stack
  | .closing _ stack => .closeParen :: closers stack

/-- Once the innermost open expression has its value, the missing brackets complete the rest. -/
theorem runs_closers (limit : Nat) (v : Value) (stack : List Open) :
    ∃ w, Runs limit (deliver v stack) (closers stack) (.done w) := by
  induction stack generalizing v with
  | nil => exact ⟨v, .nil _⟩
  | cons o stack ih =>
    cases o with
    | quote => exact ih (.quoted v)
    | list items =>
      obtain ⟨w, hw⟩ := ih (Value.chain (v :: items).reverse .nil)
      exact ⟨w, .cons hw⟩
    | dotted items =>
      obtain ⟨w, hw⟩ := ih (Value.chain items.reverse v)
      exact ⟨w, .cons hw⟩

/-- From every state there is a way to complete what is open, and it opens nothing more. -/
theorem runs_completion (limit : Nat) (state : State) :
    ∃ w, Runs limit (.proceed state) state.completion (.done w) := by
  fun_cases State.completion state with
  | case1 items stack =>
    obtain ⟨w, hw⟩ := runs_closers limit (Value.chain items.reverse .nil) stack
    exact ⟨w, .cons hw⟩
  | case2 stack hlist =>
    obtain ⟨w, hw⟩ := runs_closers limit (.string "") stack
    have hfeed : feed limit (.inside stack) (.string "") = deliver (.string "") stack :=
      feed_inside (by simp) (by simp [dot])
    exact ⟨w, .cons (hfeed ▸ hw)⟩
  | case3 v stack =>
    obtain ⟨w, hw⟩ := runs_closers limit v stack
    exact ⟨w, .cons hw⟩

end Reader

namespace Cursor

open Reader

/-- Where tokens end inside an expression, the reading goes on with it. -/
theorem readAllFrom_append_open {limit : Nat} {state : State} {index : Nat} {ts : List Token}
    {kind : Option Token.Kind}
    (h : (readAllFrom limit state index ts).error = some (.endOfInput kind)) :
    ∃ last : State, ∀ us, (readAllFrom limit state index (ts ++ us)).error =
      (readAllFrom limit last (index + ts.length) us).error := by
  fun_induction readAllFrom limit state index ts with
  | case1 state index => exact ⟨state, fun us => rfl⟩
  | case2 state index rest ih =>
    obtain ⟨last, hlast⟩ := ih h
    refine ⟨last, fun us => ?_⟩
    rw [List.length_cons, Nat.add_comm rest.length, ← Nat.add_assoc]
    exact hlast us
  | case3 state index t rest hline next hfeed ih =>
    obtain ⟨last, hlast⟩ := ih h
    refine ⟨last, fun us => ?_⟩
    rw [List.cons_append, readAllFrom_cons _ _ _ hline, hfeed, List.length_cons,
      Nat.add_comm rest.length, ← Nat.add_assoc]
    exact hlast us
  | case4 state index t rest hline v hfeed ih =>
    obtain ⟨last, hlast⟩ := ih h
    refine ⟨last, fun us => ?_⟩
    rw [List.cons_append, readAllFrom_cons _ _ _ hline, hfeed, List.length_cons,
      Nat.add_comm rest.length, ← Nat.add_assoc]
    exact hlast us
  | case5 state index t rest hline e hfeed | case6 state index t rest hline e hfeed =>
    exact absurd (Option.some.inj h) (feed_ne_endOfInput hfeed kind)

/-- Tokens that end inside an expression can be completed, without nesting anything deeper. -/
theorem exists_completion {limit : Nat} {ts : List Token} {kind : Option Token.Kind}
    (h : ((ofTokens ts).readAll limit).error = some (.endOfInput kind)) :
    ∃ us, ((ofTokens (ts ++ us)).readAll limit).error = none := by
  obtain ⟨last, hlast⟩ := readAllFrom_append_open h
  obtain ⟨w, hruns⟩ := runs_completion limit last
  refine ⟨last.completion ++ [], (hlast _).trans ?_⟩
  rw [readAllFrom_of_runs hruns]
  rfl

/-- An error other than an early end is the error of the tokens with any others after them, also
with a higher limit. -/
theorem error_append {limit limit' : Nat} (hle : limit ≤ limit') {ts : List Token} {e : ReadError}
    (h : ((ofTokens ts).readAll limit).error = some e) (hdeep : e ≠ .tooDeep)
    (hend : ∀ kind, e ≠ .endOfInput kind) (us : List Token) :
    ((ofTokens (ts ++ us)).readAll limit').error = some e := by
  have hsame : (ofTokens ts).readAll limit' = (ofTokens ts).readAll limit :=
    readAllFrom_of_le hle (by rw [readAll] at h; simpa [h] using hdeep)
  have happend := readAll_append limit' ts us (.inl rfl)
  rw [hsame] at happend
  exact (happend.failed h hend).2

/-- **Incomplete input.** Let some tokens, whose integers are written with a sign and few enough
digits, be unreadable without being nested too deeply. Then a token is missing or stands at the
wrong place, and

* the tokens end too early exactly if they can be completed to readable ones, however deep these may
  be nested; then the limit that the tokens were read with suffices for a completion;
* otherwise the same error is met with any tokens after them, also with a higher limit. -/
theorem readAll_endOfInput_iff {limit : Nat} {ts : List Token} {e : ReadError}
    (hdigits : ∀ lexeme, .integer lexeme ∈ ts → Text.isInteger lexeme.toList = true ∧
      (Text.splitSign lexeme.toList).2.length ≤ Text.maxDigits)
    (h : ((ofTokens ts).readAll limit).error = some e) (hdeep : e ≠ .tooDeep) :
    e.isMistake = true ∧
    ((∃ kind, e = .endOfInput kind) ↔
      ∃ us limit', ((ofTokens (ts ++ us)).readAll limit').error = none) ∧
    ((∃ kind, e = .endOfInput kind) →
      ∃ us, ((ofTokens (ts ++ us)).readAll limit).error = none) ∧
    ((∀ kind, e ≠ .endOfInput kind) → ∀ us limit', limit ≤ limit' →
      ((ofTokens (ts ++ us)).readAll limit').error = some e) := by
  have hcompletion : (∃ kind, e = .endOfInput kind) →
      ∃ us, ((ofTokens (ts ++ us)).readAll limit).error = none := by
    rintro ⟨kind, rfl⟩
    exact exists_completion h
  refine ⟨?_, ⟨fun hend => ?_, ?_⟩, hcompletion, fun hend us limit' hle => ?_⟩
  · obtain ⟨c, hsuffix, hread⟩ := read_of_readAll_error h
    exact isMistake_of_read hdigits hsuffix hread hdeep
  · obtain ⟨us, hus⟩ := hcompletion hend
    exact ⟨us, limit, hus⟩
  · rintro ⟨us, limit', hnone⟩
    by_cases hend : ∃ kind, e = .endOfInput kind
    · exact hend
    · -- under the higher of the two limits both readings would go on as they did
      have hkind : ∀ kind, e ≠ .endOfInput kind := fun kind he => hend ⟨kind, he⟩
      have hfails := error_append (Nat.le_max_left limit limit') h hdeep hkind us
      have hreads : (ofTokens (ts ++ us)).readAll (max limit limit') =
          (ofTokens (ts ++ us)).readAll limit' :=
        readAllFrom_of_le (Nat.le_max_right limit limit') (by rw [readAll] at hnone; simp [hnone])
      rw [hreads, hnone] at hfails
      cases hfails
  · exact error_append hle h hdeep hend us

/-- A list that is open inside a quoted dotted chain can be completed; a bracket that stands where
the tail has to be cannot be mended. -/
theorem readAll_endOfInput_iff_of_open_tail :
    let ts : List Token := [.openParen, .integer "1", .symbol ".", .quoteMark, .openParen]
    let us : List Token := [.openParen, .integer "1", .symbol ".", .closeParen]
    ((ofTokens ts).readAll 10).error = some (.endOfInput (some .closeParen)) ∧
      (∃ more, ((ofTokens (ts ++ more)).readAll 10).error = none) ∧
      ((ofTokens us).readAll 10).error = some (.unhandled .closeParen) ∧
      ∀ more limit, 10 ≤ limit →
        ((ofTokens (us ++ more)).readAll limit).error = some (.unhandled .closeParen) := by
  intro ts us
  have hdigits (vs : List Token) (hvs : vs = ts ∨ vs = us) : ∀ lexeme, .integer lexeme ∈ vs →
      Text.isInteger lexeme.toList = true ∧
        (Text.splitSign lexeme.toList).2.length ≤ Text.maxDigits := by
    intro lexeme hmem
    obtain rfl : lexeme = "1" := by rcases hvs with rfl | rfl <;> simpa [ts, us] using hmem
    decide
  have hopen : ((ofTokens ts).readAll 10).error = some (.endOfInput (some .closeParen)) := by
    decide
  have hstray : ((ofTokens us).readAll 10).error = some (.unhandled .closeParen) := by decide
  obtain ⟨-, -, hmore, -⟩ := readAll_endOfInput_iff (hdigits ts (.inl rfl)) hopen (by simp)
  obtain ⟨-, -, -, hsame⟩ := readAll_endOfInput_iff (hdigits us (.inr rfl)) hstray (by simp)
  exact ⟨hopen, hmore ⟨_, rfl⟩, hstray, hsame (by simp)⟩

end Cursor

end MiniScheme
