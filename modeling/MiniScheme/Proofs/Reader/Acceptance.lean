import MiniScheme.Proofs.Reader.Grammar
import MiniScheme.Proofs.Text.Decimal

/-!
# What the reader accepts

Reading one expression at a cursor succeeds exactly if the tokens from there on begin with one. The
expression and the position after it are then unique. In every other case the tokens are at fault,
apart from the two limits: on the digits of an integer and on nesting, which so many tokens as there
are can exceed only if the limit is small.

## Main definitions

* `Reader.Expression`, `Reader.Expressions`: the grammar, nested as deep as it takes.
* `Cursor.Spans`: an expression that stands between two positions.
* `ReadError.isMistake`: errors that are the fault of the tokens.

## Main statements

* `Cursor.spans_of_readFrom`, `Cursor.readFrom_of_runs`: one expression, in both directions.
* `Cursor.readFrom_ne_tooDeep`: how deep some tokens can be nested.
* `Cursor.read_iff_spans`: the reader and the grammar agree.
-/

namespace MiniScheme

/-- Whether an error is the fault of the tokens, and not a limit that they exceed. -/
def ReadError.isMistake : ReadError → Bool
  | endOfInput _ | mismatch _ _ | unhandled _ => true
  | tooManyDigits | tooDeep => false

namespace Reader

/-! ## The grammar without a limit -/

/-- The tokens of an expression, nested as deep as it takes. -/
def Expression (ts : List Token) (v : Value) : Prop := ∃ room, Derives room ts (.expr v)

def Expressions (ts : List Token) (vs : List Value) : Prop := ∃ room, Forms room ts vs

/-- What can be derived can be derived with more room. -/
theorem Derives.mono {room room' : Nat} {ts : List Token} {phrase : Phrase}
    (h : Derives room ts phrase) (hle : room ≤ room') : Derives room' ts phrase := by
  induction h generalizing room' with
  | quote _ ih =>
    obtain ⟨r, rfl⟩ := Nat.exists_eq_add_of_le' (Nat.le_of_add_left_le hle)
    exact .quote (ih (by omega))
  | empty room =>
    obtain ⟨r, rfl⟩ := Nat.exists_eq_add_of_le' (Nat.le_of_add_left_le hle)
    exact .empty r
  | list _ _ ihfirst ihrest =>
    obtain ⟨r, rfl⟩ := Nat.exists_eq_add_of_le' (Nat.le_of_add_left_le hle)
    exact .list (ihfirst (by omega)) (ihrest (by omega))
  | dotted _ _ _ ihfirst ihrest ihlast =>
    obtain ⟨r, rfl⟩ := Nat.exists_eq_add_of_le' (Nat.le_of_add_left_le hle)
    exact .dotted (ihfirst (by omega)) (ihrest (by omega)) (ihlast (by omega))
  | boolean _ b => exact .boolean _ b
  | integer _ hn => exact .integer _ hn
  | string _ s => exact .string _ s
  | symbol _ name => exact .symbol _ name
  | none _ => exact .none _
  | item _ _ hdot ihbefore ih => exact .item (ihbefore hle) (ih hle) hdot

theorem Forms.mono {room room' : Nat} {ts : List Token} {vs : List Value}
    (h : Forms room ts vs) (hle : room ≤ room') : Forms room' ts vs := by
  induction h with
  | nil => exact .nil
  | cons first _ ih => exact .cons (first.mono hle) ih

/-! ## What a token can do -/

def State.depth : State → Nat
  | .inside stack | .closing _ stack => Reader.depth stack

/-- What a token can do in a state: complete a value, open an expression or mark a tail, or be
refused because it cannot stand there, because it is an integer with too many digits, or because
expressions are nested too deeply. -/
inductive Fed (limit : Nat) (state : State) (t : Token) (step : Step) : Prop where
  | delivered {v : Value} {stack : List Open} (hstep : step = deliver v stack)
      (hle : Reader.depth stack ≤ state.depth)
  | opened {next : State} (hstep : step = .proceed next) (hle : next.depth ≤ state.depth + 2)
      (hne : next ≠ .initial)
  | mistaken {e : ReadError} {consumed : Bool} (hstep : step = .fail e consumed)
      (he : e.isMistake = true)
  | tooManyDigits {lexeme : String} (hstep : step = .fail .tooManyDigits true)
      (ht : t = .integer lexeme) (hdigits : Text.toInteger? lexeme.toList = none)
  | tooDeep (hstep : step = .fail .tooDeep true) (hle : limit ≤ state.depth + 2)

theorem push_fed {limit : Nat} {o : Open} {stack : List Open} {t : Token} (ho : o.weight ≤ 2) :
    Fed limit (.inside stack) t (push limit o stack) := by
  unfold push
  split
  · refine .opened rfl ?_ (by simp [State.initial])
    simp only [State.depth, depth, List.foldr_cons]
    omega
  · exact .tooDeep rfl (by simp only [State.depth, depth, List.foldr_cons] at *; omega)

theorem feedExpression_fed (limit : Nat) (stack : List Open) (t : Token) :
    Fed limit (.inside stack) t (feedExpression limit stack t) := by
  cases t with
  | openParen | quoteMark => exact push_fed (by simp [Open.weight])
  | boolean | string | symbol => exact .delivered rfl (Nat.le_refl _)
  | integer lexeme =>
    rw [feedExpression]
    split
    · exact .delivered rfl (Nat.le_refl _)
    · next hdigits => exact .tooManyDigits rfl rfl hdigits
  | closeParen | endOfLine => exact .mistaken rfl rfl

theorem feed_fed (limit : Nat) (state : State) (t : Token) :
    Fed limit state t (feed limit state t) := by
  unfold feed
  split
  · split
    · exact .delivered rfl (Nat.le_refl _)
    · exact .mistaken rfl rfl
  · exact .delivered rfl (by simp [State.depth, depth])
  · exact .opened rfl (by simp [State.depth, depth, Open.weight]) (by simp [State.initial])
  · exact feedExpression_fed limit _ _

theorem deliver_ne_fail (v : Value) (stack : List Open) (e : ReadError) (consumed : Bool) :
    deliver v stack ≠ .fail e consumed := by
  fun_induction deliver v stack <;> simp_all

theorem depth_of_deliver {v : Value} {stack : List Open} {next : State}
    (h : deliver v stack = .proceed next) : next.depth ≤ depth stack := by
  fun_induction deliver v stack with
  | case1 => cases h
  | case2 v stack ih => exact Nat.le_trans (ih h) (by simp [depth])
  | case3 v items stack => cases h; simp [State.depth, depth, Open.weight]
  | case4 v items stack => cases h; simp [State.depth, depth]

theorem ne_initial_of_deliver {v : Value} {stack : List Open} {next : State}
    (h : deliver v stack = .proceed next) : next ≠ .initial := by
  fun_induction deliver v stack with
  | case1 => cases h
  | case2 v stack ih => exact ih h
  | case3 | case4 => cases h; simp [State.initial]

/-- One token nests what follows it by two at most. -/
theorem depth_of_feed {limit : Nat} {state next : State} {t : Token}
    (h : feed limit state t = .proceed next) : next.depth ≤ state.depth + 2 := by
  cases feed_fed limit state t with
  | delivered hstep hle => have := depth_of_deliver (hstep.symm.trans h); omega
  | opened hstep hle => cases hstep.symm.trans h; exact hle
  | mistaken hstep | tooManyDigits hstep | tooDeep hstep => cases hstep.symm.trans h

/-- A token is refused for a mistake, for its digits, or close to the limit for its nesting. -/
theorem feed_fail_cases {limit : Nat} {state : State} {t : Token} {e : ReadError}
    {consumed : Bool} (h : feed limit state t = .fail e consumed) :
    e.isMistake = true ∨
      (e = .tooManyDigits ∧
        ∃ lexeme, t = .integer lexeme ∧ Text.toInteger? lexeme.toList = none) ∨
      (e = .tooDeep ∧ limit ≤ state.depth + 2) := by
  cases feed_fed limit state t with
  | delivered hstep => exact (deliver_ne_fail _ _ _ _ (hstep.symm.trans h)).elim
  | opened hstep => cases hstep.symm.trans h
  | mistaken hstep he => cases hstep.symm.trans h; exact .inl he
  | tooManyDigits hstep ht hdigits =>
    cases hstep.symm.trans h
    exact .inr (.inl ⟨rfl, _, ht, hdigits⟩)
  | tooDeep hstep hle => cases hstep.symm.trans h; exact .inr (.inr ⟨rfl, hle⟩)

/-- In the middle of an expression something is open. -/
theorem ne_initial_of_feed {limit : Nat} {state next : State} {t : Token}
    (h : feed limit state t = .proceed next) : next ≠ .initial := by
  cases feed_fed limit state t with
  | delivered hstep => exact ne_initial_of_deliver (hstep.symm.trans h)
  | opened hstep hle hne => cases hstep.symm.trans h; exact hne
  | mistaken hstep | tooManyDigits hstep | tooDeep hstep => cases hstep.symm.trans h

theorem State.endOfInput_isMistake (state : State) : state.endOfInput.isMistake = true := by
  unfold State.endOfInput
  split <;> rfl

end Reader

namespace Cursor

open Reader

/-! ## One expression -/

/-- What is read from some tokens is derived from those up to the last one that is taken. -/
theorem spans_of_readFrom {limit : Nat} {state : State} {index : Nat} {tokens ts : List Token}
    {v : Value} {c : Cursor} (hcovers : state.Covers limit ts)
    (h : readFrom limit state index tokens = (.ok v, c)) :
    ∃ us t rest, tokens = us ++ t :: rest ∧ t ≠ .endOfLine ∧ c = ⟨index + us.length + 1, rest⟩ ∧
      Derives (limit - 1) (ts ++ meaningful (us ++ [t])) (.expr v) := by
  fun_induction readFrom limit state index tokens generalizing ts with
  | case1 => cases h
  | case2 state index rest ih =>
    obtain ⟨us, t, left, rfl, ht, rfl, hderives⟩ := ih hcovers h
    exact ⟨.endOfLine :: us, t, left, rfl, ht, by simp; omega, by simpa [meaningful] using hderives⟩
  | case3 state index t rest hline next hfeed ih =>
    have hnext := feed_covers hcovers t
    rw [hfeed] at hnext
    obtain ⟨us, u, left, rfl, hu, rfl, hderives⟩ := ih hnext h
    refine ⟨t :: us, u, left, rfl, hu, by simp; omega, ?_⟩
    simpa [meaningful_cons hline] using hderives
  | case4 state index t rest hline u hfeed =>
    have hdone := feed_covers hcovers t
    rw [hfeed] at hdone
    cases h
    exact ⟨[], t, rest, rfl, hline, rfl, by rwa [List.nil_append, meaningful_cons hline]⟩
  | case5 => cases h
  | case6 => cases h

theorem readFrom_cons (limit : Nat) (state : State) (index : Nat) {t : Token}
    (h : t ≠ .endOfLine) (rest : List Token) :
    readFrom limit state index (t :: rest) =
      match feed limit state t with
      | .proceed next => readFrom limit next (index + 1) rest
      | .done v => (.ok v, ⟨index + 1, rest⟩)
      | .fail e true => (.error e, ⟨index + 1, rest⟩)
      | .fail e false => (.error e, ⟨index, t :: rest⟩) := by
  cases t with
  | endOfLine => exact absurd rfl h
  | _ => rfl

/-- The machine reads an expression across ends of lines. -/
theorem readFrom_of_runs {limit : Nat} {state : State} {us : List Token} {t : Token} {v : Value}
    (h : Runs limit (.proceed state) (meaningful (us ++ [t])) (.done v)) (ht : t ≠ .endOfLine)
    (index : Nat) (rest : List Token) :
    readFrom limit state index (us ++ t :: rest) = (.ok v, ⟨index + us.length + 1, rest⟩) := by
  induction us generalizing state index with
  | nil =>
    rw [List.nil_append, meaningful_cons ht] at h
    cases h with
    | cons h =>
      rw [List.nil_append, readFrom_cons _ _ _ ht]
      generalize feed limit state t = step at h ⊢
      cases h
      rfl
  | cons u us ih =>
    by_cases hu : u = .endOfLine
    · subst hu
      have hskip : meaningful (.endOfLine :: us ++ [t]) = meaningful (us ++ [t]) := rfl
      rw [hskip] at h
      rw [List.cons_append, readFrom, ih h]
      simp only [List.length_cons]
      congr 2
      omega
    · rw [List.cons_append, meaningful_cons hu] at h
      cases h with
      | cons h =>
        rw [List.cons_append, readFrom_cons _ _ _ hu]
        -- something is left to be read, so the first token cannot have been the last
        obtain ⟨w, ws, hws⟩ : ∃ w ws, meaningful (us ++ [t]) = w :: ws :=
          List.exists_cons_of_ne_nil (by simp [meaningful, ht])
        cases hfeed : feed limit state u with
        | proceed next =>
          rw [hfeed] at h
          dsimp only
          rw [ih h]
          simp only [List.length_cons]
          congr 2
          omega
        | done | fail =>
          rw [hfeed, hws] at h
          cases h

/-- Tokens that do not nest too deeply are read in the same way with a higher limit. -/
theorem readFrom_of_le {limit limit' : Nat} (hle : limit ≤ limit') {state : State}
    {index : Nat} {tokens : List Token}
    (h : (readFrom limit state index tokens).1 ≠ .error .tooDeep) :
    readFrom limit' state index tokens = readFrom limit state index tokens := by
  fun_induction readFrom limit state index tokens with
  | case1 state index => rfl
  | case2 state index rest ih => exact ih h
  | case3 state index t rest hline next hfeed ih =>
    rw [readFrom_cons _ _ _ hline, feed_of_le hle (by simp [hfeed]), hfeed]
    exact ih h
  | case4 state index t rest hline v hfeed =>
    rw [readFrom_cons _ _ _ hline, feed_of_le hle (by simp [hfeed]), hfeed]
  | case5 state index t rest hline e hfeed =>
    have hdeep : e ≠ .tooDeep := by simpa using h
    rw [readFrom_cons _ _ _ hline, feed_of_le hle (by simp [hfeed, hdeep]), hfeed]
  | case6 state index t rest hline e hfeed =>
    rw [readFrom_cons _ _ _ hline, feed_of_le hle (by simp [hfeed]), hfeed]

/-- So few tokens cannot be nested too deeply. -/
theorem readFrom_ne_tooDeep {limit : Nat} {state : State} {index : Nat} {tokens : List Token}
    (h : state.depth + 2 * tokens.length < limit) :
    (readFrom limit state index tokens).1 ≠ .error .tooDeep := by
  have hrefused {state : State} {t : Token} {rest : List Token} {consumed : Bool}
      (h : state.depth + 2 * (t :: rest).length < limit) :
      feed limit state t ≠ .fail .tooDeep consumed := by
    intro hfeed
    rw [List.length_cons] at h
    rcases feed_fail_cases hfeed with hmistake | ⟨hdigits, -⟩ | ⟨-, hle⟩
    · cases hmistake
    · cases hdigits
    · omega
  fun_induction readFrom limit state index tokens with
  | case1 state index =>
    rintro hdeep
    have hmistake := state.endOfInput_isMistake
    rw [Except.error.inj hdeep] at hmistake
    cases hmistake
  | case2 state index rest ih => exact ih (by rw [List.length_cons] at h; omega)
  | case3 state index t rest hline next hfeed ih =>
    have hnext := depth_of_feed hfeed
    exact ih (by rw [List.length_cons] at h; omega)
  | case4 => simp
  | case5 state index t rest hline e hfeed | case6 state index t rest hline e hfeed =>
    rintro ⟨⟩
    exact hrefused h hfeed

theorem read_ne_tooDeep {limit : Nat} {c : Cursor} (h : 2 * c.rest.length < limit) :
    (c.read limit).1 ≠ .error .tooDeep := by
  refine readFrom_ne_tooDeep ?_
  simpa [State.depth, State.initial, depth] using h

/-- The error of a reading is a mistake, apart from the limits. -/
theorem isMistake_of_readFrom {limit : Nat} {state : State} {index : Nat} {tokens : List Token}
    {e : ReadError} (hdigits : ∀ lexeme, .integer lexeme ∈ tokens →
      (Text.toInteger? lexeme.toList).isSome = true)
    (h : (readFrom limit state index tokens).1 = .error e) (hdeep : e ≠ .tooDeep) :
    e.isMistake = true := by
  have hrefused {state : State} {t : Token} {rest : List Token} {consumed : Bool}
      (hdigits : ∀ lexeme, .integer lexeme ∈ t :: rest →
        (Text.toInteger? lexeme.toList).isSome = true)
      (hfeed : feed limit state t = .fail e consumed) : e.isMistake = true := by
    rcases feed_fail_cases hfeed with hmistake | ⟨-, lexeme, rfl, hnone⟩ | ⟨rfl, -⟩
    · exact hmistake
    · have hsome := hdigits lexeme List.mem_cons_self
      simp [hnone] at hsome
    · exact absurd rfl hdeep
  fun_induction readFrom limit state index tokens with
  | case1 state index =>
    cases h
    exact state.endOfInput_isMistake
  | case2 state index rest ih =>
    exact ih (fun l hl => hdigits l (List.mem_cons_of_mem _ hl)) h
  | case3 state index t rest hline next hfeed ih =>
    exact ih (fun l hl => hdigits l (List.mem_cons_of_mem _ hl)) h
  | case4 => cases h
  | case5 state index t rest hline e' hfeed | case6 state index t rest hline e' hfeed =>
    cases h
    exact hrefused hdigits hfeed

theorem isMistake_of_read {limit : Nat} {tokens : List Token} {c : Cursor} {e : ReadError}
    (hdigits : ∀ lexeme, .integer lexeme ∈ tokens → Text.isInteger lexeme.toList = true ∧
      (Text.splitSign lexeme.toList).2.length ≤ Text.maxDigits)
    (hsuffix : c.rest <:+ tokens) (h : (c.read limit).1 = .error e) (hdeep : e ≠ .tooDeep) :
    e.isMistake = true := by
  refine isMistake_of_readFrom (fun lexeme hmem => ?_) h hdeep
  exact Text.isSome_toInteger?_iff.mpr (hdigits lexeme (hsuffix.subset hmem))

/-! ## One expression after another -/

/-- To read everything is to read one expression after another, as long as there is a token. -/
theorem readAllFrom_eq (limit : Nat) (state : State) (index : Nat) (tokens : List Token) :
    readAllFrom limit state index tokens =
      if state = .initial ∧ meaningful tokens = [] then ⟨[], none, ⟨index + tokens.length, []⟩⟩
      else match readFrom limit state index tokens with
        | (.ok v, c) => (c.readAll limit).cons v
        | (.error e, c) => ⟨[], some e, c⟩ := by
  fun_induction readFrom limit state index tokens with
  | case1 state index =>
    by_cases hstate : state = .initial <;> simp [readAllFrom, hstate, meaningful]
  | case2 state index rest ih =>
    have hskip : meaningful (.endOfLine :: rest) = meaningful rest := rfl
    rw [readAllFrom, ih, hskip, List.length_cons, Nat.add_right_comm, Nat.add_assoc]
  | case3 state index t rest hline next hfeed ih =>
    -- the machine is in the middle of an expression
    have hnext := ne_initial_of_feed hfeed
    rw [readAllFrom_cons _ _ _ hline, hfeed, if_neg (by simp [meaningful_cons hline])]
    dsimp only
    rw [ih, if_neg (by simp [hnext])]
  | case4 state index t rest hline v hfeed =>
    rw [readAllFrom_cons _ _ _ hline, hfeed, if_neg (by simp [meaningful_cons hline])]
    rfl
  | case5 state index t rest hline e hfeed | case6 state index t rest hline e hfeed =>
    rw [readAllFrom_cons _ _ _ hline, hfeed, if_neg (by simp [meaningful_cons hline])]

theorem rest_of_read {limit : Nat} {c c' : Cursor} {v : Value}
    (h : c.read limit = (.ok v, c')) : c'.rest <:+ c.rest ∧ c'.rest.length < c.rest.length := by
  have hinitial : State.initial.Covers limit [] := rfl
  obtain ⟨us, t, rest, htokens, -, rfl, -⟩ := spans_of_readFrom hinitial h
  rw [htokens]
  refine ⟨⟨us ++ [t], by simp⟩, ?_⟩
  simp only [List.length_append, List.length_cons]
  omega

/-- The error of reading everything is that of reading one expression at some cursor. -/
theorem read_of_readAll_error {limit : Nat} {c : Cursor} {e : ReadError}
    (h : (c.readAll limit).error = some e) :
    ∃ c' : Cursor, c'.rest <:+ c.rest ∧ (c'.read limit).1 = .error e := by
  induction hlength : c.rest.length using Nat.strongRecOn generalizing c with
  | ind n ih =>
    subst hlength
    rw [readAll, readAllFrom_eq] at h
    split at h
    · cases h
    · split at h
      · next v c' hread =>
        obtain ⟨hsuffix, hlt⟩ := rest_of_read hread
        obtain ⟨d, hd, herror⟩ := ih _ hlt h rfl
        exact ⟨d, hd.trans hsuffix, herror⟩
      · next e' c' hread =>
        obtain rfl : e' = e := Option.some.inj h
        exact ⟨c, List.suffix_refl _, by rw [read, hread]⟩

/-- Ends of lines do not matter when everything is read. -/
theorem readAllFrom_meaningful (limit : Nat) (state : State) (index index' : Nat)
    (tokens : List Token) :
    (readAllFrom limit state index tokens).forms =
        (readAllFrom limit state index' (meaningful tokens)).forms ∧
      (readAllFrom limit state index tokens).error =
        (readAllFrom limit state index' (meaningful tokens)).error := by
  fun_induction readAllFrom limit state index tokens generalizing index' with
  | case1 state index => simp [meaningful, readAllFrom]
  | case2 state index rest ih => exact ih index'
  | case3 state index t rest hline next hfeed ih =>
    rw [meaningful_cons hline, readAllFrom_cons _ _ _ hline, hfeed]
    exact ih (index' + 1)
  | case4 state index t rest hline v hfeed ih =>
    rw [meaningful_cons hline, readAllFrom_cons _ _ _ hline, hfeed]
    obtain ⟨hforms, herror⟩ := ih (index' + 1)
    exact ⟨congrArg (v :: ·) hforms, herror⟩
  | case5 state index t rest hline e hfeed | case6 state index t rest hline e hfeed =>
    rw [meaningful_cons hline, readAllFrom_cons _ _ _ hline, hfeed]
    exact ⟨rfl, rfl⟩

theorem readAllFrom_of_forms {limit : Nat} {ts : List Token} {vs : List Value}
    (h : Forms (limit - 1) ts vs) (index : Nat) :
    (readAllFrom limit .initial index ts).forms = vs ∧
      (readAllFrom limit .initial index ts).error = none := by
  induction h generalizing index with
  | nil => exact ⟨rfl, rfl⟩
  | @cons ts us v vs first rest ih =>
    have hrun : Runs limit (.proceed .initial) ts (.done v) :=
      first.isRead [] (Nat.le_refl _) (fun _ => rfl)
    obtain ⟨hforms, herror⟩ := ih (index + ts.length)
    rw [readAllFrom_of_runs hrun]
    exact ⟨congrArg (v :: ·) hforms, herror⟩

/-! ## The reader and the grammar -/

def ofPosition (tokens : List Token) (i : Nat) : Cursor := ⟨i, tokens.drop i⟩

/-- The tokens from one position up to another are an expression, but for ends of lines, and the
last of them stands just before the second position. -/
def Spans (tokens : List Token) (i j : Nat) (v : Value) : Prop :=
  ∃ before us t rest, tokens = before ++ (us ++ t :: rest) ∧ i = before.length ∧
    j = before.length + us.length + 1 ∧ t ≠ .endOfLine ∧ Expression (meaningful (us ++ [t])) v

theorem ofPosition_append (before rest : List Token) :
    ofPosition (before ++ rest) before.length = ⟨before.length, rest⟩ := by
  simp [ofPosition]

theorem ofPosition_after (before us : List Token) (t : Token) (rest : List Token) :
    ofPosition (before ++ (us ++ t :: rest)) (before.length + us.length + 1) =
      ⟨before.length + us.length + 1, rest⟩ := by
  have hposition := ofPosition_append (before ++ (us ++ [t])) rest
  simpa [Nat.add_assoc] using hposition

theorem spans_of_read {limit : Nat} {tokens : List Token} {i : Nat} {v : Value} {c : Cursor}
    (h : (ofPosition tokens i).read limit = (.ok v, c)) :
    ∃ j, c = ofPosition tokens j ∧ Spans tokens i j v := by
  have hinitial : State.initial.Covers limit [] := rfl
  obtain ⟨us, t, rest, hdrop, ht, rfl, hderives⟩ := spans_of_readFrom hinitial h
  replace hdrop : tokens.drop i = us ++ t :: rest := hdrop
  obtain ⟨before, rfl, rfl⟩ : ∃ before, tokens = before ++ (us ++ t :: rest) ∧
      i = before.length := by
    refine ⟨tokens.take i, by rw [← hdrop, List.take_append_drop], ?_⟩
    have hlength := congrArg List.length hdrop
    simp only [List.length_drop, List.length_append, List.length_cons] at hlength
    rw [List.length_take]
    omega
  refine ⟨before.length + us.length + 1, ?_, before, us, t, rest, rfl, rfl, rfl, ht, _, hderives⟩
  rw [ofPosition_after]
  rfl

theorem read_of_spans {tokens : List Token} {i j : Nat} {v : Value} (h : Spans tokens i j v) :
    ∃ room, ∀ limit, room < limit →
      (ofPosition tokens i).read limit = (.ok v, ofPosition tokens j) := by
  obtain ⟨before, us, t, rest, rfl, rfl, rfl, ht, room, hderives⟩ := h
  refine ⟨room, fun limit hlimit => ?_⟩
  have hroom : room ≤ Reader.room limit [] := by simp [Reader.room, depth]; omega
  have hruns : Runs limit (.proceed .initial) (meaningful (us ++ [t])) (.done v) :=
    hderives.isRead [] hroom (fun _ => rfl)
  rw [ofPosition_after, read, ofPosition_append, readFrom_of_runs hruns ht]

/-- An expression that spans some tokens is read, unless they are nested too deeply. -/
theorem read_eq_of_spans {limit : Nat} {tokens : List Token} {i j : Nat} {v : Value}
    (h : Spans tokens i j v) (hdeep : ((ofPosition tokens i).read limit).1 ≠ .error .tooDeep) :
    (ofPosition tokens i).read limit = (.ok v, ofPosition tokens j) := by
  obtain ⟨room, hread⟩ := read_of_spans h
  have hsame : (ofPosition tokens i).read (max limit (room + 1)) =
      (ofPosition tokens i).read limit := readFrom_of_le (Nat.le_max_left _ _) hdeep
  rw [← hsame]
  exact hread _ (by omega)

/-- Where an expression starts, it is the only one. -/
theorem Spans.unique {tokens : List Token} {i j k : Nat} {v w : Value}
    (hv : Spans tokens i j v) (hw : Spans tokens i k w) : v = w ∧ j = k := by
  obtain ⟨room, hread⟩ := read_of_spans hv
  obtain ⟨room', hread'⟩ := read_of_spans hw
  have hboth := (hread (max room room' + 1) (by omega)).symm.trans
    (hread' (max room room' + 1) (by omega))
  simp only [Prod.mk.injEq, Except.ok.injEq, ofPosition, Cursor.mk.injEq] at hboth
  exact ⟨hboth.1, hboth.2.1⟩

theorem readAll_of_forms {limit : Nat} {c : Cursor} {vs : List Value}
    (h : Forms (limit - 1) (meaningful c.rest) vs) :
    (c.readAll limit).error = none ∧ (c.readAll limit).forms = vs := by
  obtain ⟨hvs, herror⟩ := readAllFrom_of_forms h 0
  obtain ⟨hvs', herror'⟩ := readAllFrom_meaningful limit .initial c.index 0 c.rest
  rw [readAll, herror', hvs']
  exact ⟨herror, hvs⟩

/-- All expressions of some tokens are read, unless they are nested too deeply. -/
theorem readAll_of_expressions {limit : Nat} {c : Cursor} {vs : List Value}
    (h : Expressions (meaningful c.rest) vs) (hdeep : (c.readAll limit).error ≠ some .tooDeep) :
    (c.readAll limit).error = none ∧ (c.readAll limit).forms = vs := by
  obtain ⟨room, hforms⟩ := h
  let larger := max limit (room + 1)
  have hsame : c.readAll larger = c.readAll limit :=
    readAllFrom_of_le (Nat.le_max_left _ _) hdeep
  have hroom : Forms (larger - 1) (meaningful c.rest) vs := hforms.mono (by omega)
  rw [← hsame]
  exact readAll_of_forms hroom

/-- What is read without an error is derived. -/
theorem expressions_of_readAll {limit : Nat} {c : Cursor}
    (h : (c.readAll limit).error = none) :
    Expressions (meaningful c.rest) (c.readAll limit).forms := by
  have hinitial : State.initial.Covers limit [] := rfl
  have hread := @forms_of_readAllFrom limit .initial c.index c.rest [] hinitial
  obtain ⟨us, rest, heq, hforms, hend⟩ := hread
  rw [hend h, List.append_nil] at heq
  exact ⟨_, heq ▸ hforms⟩

theorem readAll_of_meaningful_eq_nil {limit : Nat} {c : Cursor} (h : meaningful c.rest = []) :
    (c.readAll limit).error = none := by
  rw [readAll, readAllFrom_eq, if_pos ⟨rfl, h⟩]

theorem readAll_of_meaningful_ne_nil {limit : Nat} {c : Cursor} (h : meaningful c.rest ≠ []) :
    c.readAll limit = match c.read limit with
      | (.ok v, c') => (c'.readAll limit).cons v
      | (.error e, c') => ⟨[], some e, c'⟩ := by
  rw [readAll, readAllFrom_eq, if_neg fun hnil => h hnil.2]
  rfl

/-- The tokens of one expression are read as that expression, or they are nested too deeply and
nothing is read at all. -/
theorem readAll_of_expression {c : Cursor} {v : Value} (h : Expression (meaningful c.rest) v)
    (limit : Nat) :
    ((c.readAll limit).error = none ∧ (c.readAll limit).forms = [v]) ∨
      (limit ≤ 2 * c.rest.length ∧ (c.readAll limit).error = some .tooDeep ∧
        (c.readAll limit).forms = []) := by
  obtain ⟨room, hderives⟩ := h
  have hforms : Forms room (meaningful c.rest) [v] := by simpa using Forms.cons hderives .nil
  by_cases hdeep : (c.readAll limit).error = some .tooDeep
  · refine .inr ?_
    have hsome : meaningful c.rest ≠ [] := by
      intro hnil
      rw [readAll_of_meaningful_eq_nil hnil] at hdeep
      cases hdeep
    rcases hread : c.read limit with ⟨e | w, c'⟩
    · rw [readAll_of_meaningful_ne_nil hsome, hread] at hdeep ⊢
      obtain rfl : e = .tooDeep := Option.some.inj hdeep
      refine ⟨Nat.le_of_not_lt fun hlt => read_ne_tooDeep hlt ?_, rfl, rfl⟩
      rw [hread]
    · -- with more room the same is read first, and then nothing is left that could be too deep
      let larger := max limit (room + 1)
      have hsame : c.read larger = c.read limit :=
        readFrom_of_le (Nat.le_max_left _ _) (by rw [← read, hread]; simp)
      have hall : Forms (larger - 1) (meaningful c.rest) [v] := hforms.mono (by omega)
      obtain ⟨herror, hone⟩ := readAll_of_forms hall
      rw [readAll_of_meaningful_ne_nil hsome, hsame, hread] at herror hone
      obtain ⟨_, hrest⟩ := expressions_of_readAll (c := c') herror
      rw [(List.cons.inj hone).2] at hrest
      rw [readAll_of_meaningful_ne_nil hsome, hread] at hdeep
      have hend : (c'.readAll limit).error = none := by
        apply readAll_of_meaningful_eq_nil
        generalize meaningful c'.rest = ts at hrest
        cases hrest
        rfl
      cases hend.symm.trans hdeep
  · exact .inl (readAll_of_expressions ⟨room, hforms⟩ hdeep)

/-- **Acceptance.** The reader accepts exactly its grammar, at every position in every list of
tokens whose integers are written with few enough digits, and with nothing but a sign and digits.
Unless expressions are nested too deeply, which fewer tokens than half the limit never are,

* one expression is read exactly if it spans the tokens up to where the cursor is afterwards, and
  if there is no such expression, the tokens are at fault;
* at most one expression starts at a position;
* all expressions are read exactly if the tokens are those of the expressions one after another,
  and otherwise the tokens are at fault. -/
theorem read_iff_spans {tokens : List Token}
    (hdigits : ∀ lexeme, .integer lexeme ∈ tokens → Text.isInteger lexeme.toList = true ∧
      (Text.splitSign lexeme.toList).2.length ≤ Text.maxDigits) (i : Nat) :
    let c := ofPosition tokens i
    (∀ limit, 2 * tokens.length < limit →
      (c.read limit).1 ≠ .error .tooDeep ∧ (c.readAll limit).error ≠ some .tooDeep) ∧
    (∀ limit, (c.read limit).1 ≠ .error .tooDeep →
      (∀ v c', c.read limit = (.ok v, c') ↔ ∃ j, c' = ofPosition tokens j ∧ Spans tokens i j v) ∧
      ((∀ v j, ¬ Spans tokens i j v) →
        ∃ e, (c.read limit).1 = .error e ∧ e.isMistake = true)) ∧
    (∀ v w j k, Spans tokens i j v → Spans tokens i k w → v = w ∧ j = k) ∧
    ∀ limit, (c.readAll limit).error ≠ some .tooDeep →
      (∀ vs, (c.readAll limit).error = none ∧ (c.readAll limit).forms = vs ↔
        Expressions (meaningful (tokens.drop i)) vs) ∧
      ((∀ vs, ¬ Expressions (meaningful (tokens.drop i)) vs) →
        ∃ e, (c.readAll limit).error = some e ∧ e.isMistake = true) := by
  intro c
  have hrest : c.rest <:+ tokens := List.drop_suffix i tokens
  have hshallow {limit : Nat} {d : Cursor} (hsuffix : d.rest <:+ tokens)
      (hlimit : 2 * tokens.length < limit) : (d.read limit).1 ≠ .error .tooDeep := by
    have hle := hsuffix.length_le
    exact read_ne_tooDeep (by omega)
  refine ⟨fun limit hlimit => ⟨hshallow hrest hlimit, fun herror => ?_⟩,
    fun limit hdeep => ⟨fun v c' => ⟨spans_of_read, ?_⟩, fun hnone => ?_⟩,
    fun v w j k hv hw => hv.unique hw,
    fun limit hdeep => ⟨fun vs => ⟨?_, fun h => readAll_of_expressions h hdeep⟩, fun hnone => ?_⟩⟩
  · obtain ⟨d, hsuffix, hread⟩ := read_of_readAll_error herror
    exact hshallow (hsuffix.trans hrest) hlimit hread
  · rintro ⟨j, rfl, hspans⟩
    exact read_eq_of_spans hspans hdeep
  · rcases hread : c.read limit with ⟨e | v, c'⟩
    · have hne : e ≠ .tooDeep := by
        rintro rfl
        exact hdeep (by rw [hread])
      exact ⟨e, rfl, isMistake_of_read hdigits hrest (by rw [hread]) hne⟩
    · obtain ⟨j, -, hspans⟩ := spans_of_read hread
      exact (hnone v j hspans).elim
  · rintro ⟨herror, rfl⟩
    exact expressions_of_readAll herror
  · cases herror : (c.readAll limit).error with
    | none => exact (hnone _ (expressions_of_readAll herror)).elim
    | some e =>
      obtain ⟨d, hsuffix, hread⟩ := read_of_readAll_error herror
      have hne : e ≠ .tooDeep := by
        rintro rfl
        exact hdeep herror
      exact ⟨e, rfl, isMistake_of_read hdigits (hsuffix.trans hrest) hread hne⟩

/-- A dotted chain across two lines is the one expression that starts at its bracket, and no
expression starts at a stray bracket. -/
theorem read_iff_spans_of_stray_bracket :
    let tokens : List Token := [.openParen, .symbol "a", .endOfLine, .symbol ".", .integer "12",
      .closeParen, .closeParen]
    Spans tokens 0 6 (.pair (.symbol "a") (.integer 12)) ∧
      (∀ v j, Spans tokens 0 j v → v = .pair (.symbol "a") (.integer 12) ∧ j = 6) ∧
      ∀ v j, ¬ Spans tokens 6 j v := by
  intro tokens
  have hdigits : ∀ lexeme, .integer lexeme ∈ tokens → Text.isInteger lexeme.toList = true ∧
      (Text.splitSign lexeme.toList).2.length ≤ Text.maxDigits := by
    intro lexeme hmem
    obtain rfl : lexeme = "12" := by simpa [tokens] using hmem
    decide
  obtain ⟨hshallow, hread, hunique, -⟩ := read_iff_spans hdigits 0
  have hspans : Spans tokens 0 6 (.pair (.symbol "a") (.integer 12)) := by
    obtain ⟨j, hj, hspans⟩ := ((hread 15 (hshallow 15 (by decide)).1).1
      (.pair (.symbol "a") (.integer 12)) ⟨6, [.closeParen]⟩).mp rfl
    obtain rfl : 6 = j := congrArg Cursor.index hj
    exact hspans
  refine ⟨hspans, fun v j h => hunique _ _ _ _ h hspans, fun v j h => ?_⟩
  obtain ⟨hshallow, hread, -⟩ := read_iff_spans hdigits 6
  have hok := ((hread 15 (hshallow 15 (by decide)).1).1 v _).mpr ⟨j, rfl, h⟩
  cases hok

end Cursor

end MiniScheme
