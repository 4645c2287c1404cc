import MiniScheme.Proofs.Reader.Acceptance

/-!
# Stepping through tokens

A cursor can be asked, in any order and also after errors, whether tokens are left, for the next
token, and for one or all of the expressions that follow. Every request moves the cursor over some
tokens, and none moves it back. What it replies does not depend on where the ends of lines stand.

## Main definitions

* `Cursor.Request`, `Cursor.Reply`, `Cursor.perform`: the requests and what comes of them.
* `Cursor.Moves`: a cursor moves over some tokens.
* `Cursor.Rounds`: expressions are read one after another until there are none.

## Main statements

* `Cursor.moves_perform`: what a request moves the cursor over.
* `Cursor.exists_rounds`: reading everything comes to an end.
* `Cursor.alike_perform`: cursors that differ in ends of lines reply alike.
* `Cursor.perform_protocol`: all of this after every sequence of requests.
-/

namespace MiniScheme.Cursor

open Reader

inductive Request where
  | atEnd
  | peek
  | advance (expected : Option Token.Kind)
  | read
  | readAll
  deriving DecidableEq, Repr

inductive Reply where
  | atEnd (ended : Bool)
  | peeked (next : Option Token)
  | advanced (taken : Except ReadError Token)
  | read (taken : Except ReadError Value)
  | readAll (forms : List Value) (error : Option ReadError)

def perform (limit : Nat) (c : Cursor) : Request → Reply × Cursor
  | .atEnd => (.atEnd c.atEnd.1, c.atEnd.2)
  | .peek => (.peeked c.peek.1, c.peek.2)
  | .advance expected => (.advanced (c.advance expected).1, (c.advance expected).2)
  | .read => (.read (c.read limit).1, (c.read limit).2)
  | .readAll =>
    (.readAll (c.readAll limit).forms (c.readAll limit).error, (c.readAll limit).cursor)

def after (limit : Nat) (c : Cursor) (requests : List Request) : Cursor :=
  requests.foldl (fun c request => (c.perform limit request).2) c

/-! ## How a cursor moves -/

/-- A cursor moves over some tokens to another place. -/
structure Moves (c : Cursor) (passed : List Token) (c' : Cursor) : Prop where
  rest : c.rest = passed ++ c'.rest
  index : c'.index = c.index + passed.length

namespace Moves

variable {c c' c'' : Cursor} {passed passed' : List Token}

theorem refl (c : Cursor) : Moves c [] c := ⟨rfl, rfl⟩

theorem trans (h : Moves c passed c') (h' : Moves c' passed' c'') :
    Moves c (passed ++ passed') c'' where
  rest := by rw [h.rest, h'.rest, List.append_assoc]
  index := by rw [h'.index, h.index, List.length_append, Nat.add_assoc]

theorem cons {index : Nat} {t : Token} {rest : List Token}
    (h : Moves ⟨index + 1, rest⟩ passed c') : Moves ⟨index, t :: rest⟩ (t :: passed) c' where
  rest := congrArg (t :: ·) h.rest
  index := by
    rw [h.index, List.length_cons]
    change index + 1 + passed.length = index + (passed.length + 1)
    omega

theorem single (index : Nat) (t : Token) (rest : List Token) :
    Moves ⟨index, t :: rest⟩ [t] ⟨index + 1, rest⟩ := ⟨rfl, rfl⟩

end Moves

/-- A cursor stands before the first token that is not the end of a line, or at the end, once it
has moved past ends of lines. -/
theorem skipLines_cases (c : Cursor) :
    ∃ passed, (∀ t ∈ passed, t = .endOfLine) ∧ Moves c passed c.skipLines ∧
      ((c.skipLines.rest = [] ∧ meaningful c.rest = []) ∨
        ∃ t rest, c.skipLines.rest = t :: rest ∧ t ≠ .endOfLine ∧
          meaningful c.rest = t :: meaningful rest) := by
  obtain ⟨index, rest⟩ := c
  unfold skipLines
  fun_induction skipLines.go index rest with
  | case1 index rest ih =>
    obtain ⟨passed, hlines, hmoves, hnext⟩ := ih
    exact ⟨.endOfLine :: passed, List.forall_mem_cons.mpr ⟨rfl, hlines⟩, hmoves.cons, hnext⟩
  | case2 index rest hline =>
    refine ⟨[], by simp, .refl _, ?_⟩
    cases rest with
    | nil => exact .inl ⟨rfl, rfl⟩
    | cons t rest =>
      have ht : t ≠ .endOfLine := fun h => hline rest (h ▸ rfl)
      exact .inr ⟨t, rest, rfl, ht, meaningful_cons ht rest⟩

/-- The next token is taken, unless another kind is expected. -/
theorem advance_cases {c : Cursor} {t : Token} {rest : List Token}
    (h : c.skipLines.rest = t :: rest) (expected : Option Token.Kind) :
    ((∀ kind ∈ expected, t.kind = kind) ∧
        c.advance expected = (.ok t, ⟨c.skipLines.index + 1, rest⟩)) ∨
      ∃ kind, expected = some kind ∧ t.kind ≠ kind ∧
        c.advance expected = (.error (.mismatch kind t), c.skipLines) := by
  simp only [advance, h]
  cases expected with
  | none => exact .inl ⟨by simp, rfl⟩
  | some kind =>
    by_cases hkind : t.kind = kind
    · exact .inl ⟨by simpa using hkind, by simp only [if_pos hkind]⟩
    · exact .inr ⟨kind, rfl, hkind, by simp only [if_neg hkind]⟩

theorem advance_of_nil {c : Cursor} (h : c.skipLines.rest = []) (expected : Option Token.Kind) :
    c.advance expected = (.error (.endOfInput expected), c.skipLines) := by
  simp only [advance, h]

theorem moves_readFrom (limit : Nat) (state : State) (index : Nat) (tokens : List Token) :
    ∃ passed, Moves ⟨index, tokens⟩ passed (readFrom limit state index tokens).2 ∧
      ∀ v, (readFrom limit state index tokens).1 = .ok v → ∃ t ∈ passed, t ≠ .endOfLine := by
  fun_induction readFrom limit state index tokens with
  | case1 state index => exact ⟨[], .refl _, fun _ h => by cases h⟩
  | case2 state index rest ih =>
    obtain ⟨passed, hmoves, hok⟩ := ih
    refine ⟨_, hmoves.cons, fun v hv => ?_⟩
    obtain ⟨t, ht, hne⟩ := hok v hv
    exact ⟨t, List.mem_cons_of_mem _ ht, hne⟩
  | case3 state index t rest hline next hfeed ih =>
    obtain ⟨passed, hmoves, -⟩ := ih
    exact ⟨_, hmoves.cons, fun _ _ => ⟨t, List.mem_cons_self, hline⟩⟩
  | case4 state index t rest hline v hfeed =>
    exact ⟨[t], .single _ _ _, fun _ _ => ⟨t, List.mem_cons_self, hline⟩⟩
  | case5 state index t rest hline e hfeed =>
    exact ⟨[t], .single _ _ _, fun _ h => by cases h⟩
  | case6 state index t rest hline e hfeed => exact ⟨[], .refl _, fun _ h => by cases h⟩

theorem moves_readAllFrom (limit : Nat) (state : State) (index : Nat) (tokens : List Token) :
    ∃ passed, Moves ⟨index, tokens⟩ passed (readAllFrom limit state index tokens).cursor := by
  fun_induction readAllFrom limit state index tokens with
  | case1 state index => exact ⟨[], .refl _⟩
  | case2 state index rest ih | case3 state index t rest hline next hfeed ih
  | case4 state index t rest hline v hfeed ih =>
    obtain ⟨passed, hmoves⟩ := ih
    exact ⟨_, hmoves.cons⟩
  | case5 state index t rest hline e hfeed => exact ⟨[t], .single _ _ _⟩
  | case6 state index t rest hline e hfeed => exact ⟨[], .refl _⟩

/-- What a cursor has looked at or refused, but not taken. -/
def Reply.isLook : Reply → Bool
  | .atEnd _ | .peeked _ | .advanced (.error _) => true
  | _ => false

/-- A request moves the cursor forward: over ends of lines only, if nothing is taken, and over some
other token, if an expression is read. -/
theorem moves_perform (limit : Nat) (c : Cursor) (request : Request) :
    ∃ passed, Moves c passed (c.perform limit request).2 ∧
      ((c.perform limit request).1.isLook = true → ∀ t ∈ passed, t = .endOfLine) ∧
      ∀ v, (c.perform limit request).1 = .read (.ok v) → ∃ t ∈ passed, t ≠ .endOfLine := by
  obtain ⟨passed, hlines, hskip, hnext⟩ := skipLines_cases c
  cases request with
  | atEnd => exact ⟨passed, hskip, fun _ => hlines, nofun⟩
  | peek => exact ⟨passed, hskip, fun _ => hlines, nofun⟩
  | advance expected =>
    change ∃ passed, Moves c passed (c.advance expected).2 ∧
      ((Reply.advanced (c.advance expected).1).isLook = true → ∀ t ∈ passed, t = .endOfLine) ∧ _
    rcases hnext with ⟨hrest, -⟩ | ⟨t, rest, hrest, -⟩
    · rw [advance_of_nil hrest]
      exact ⟨passed, hskip, fun _ => hlines, nofun⟩
    · rcases advance_cases hrest expected with ⟨-, htaken⟩ | ⟨kind, -, -, hrefused⟩
      · rw [htaken]
        have hstep : Moves c.skipLines [t] ⟨c.skipLines.index + 1, rest⟩ := ⟨hrest, rfl⟩
        exact ⟨_, hskip.trans hstep, nofun, nofun⟩
      · rw [hrefused]
        exact ⟨passed, hskip, fun _ => hlines, nofun⟩
  | read =>
    obtain ⟨passed, hmoves, hok⟩ := moves_readFrom limit .initial c.index c.rest
    refine ⟨passed, hmoves, nofun, fun v hv => hok v ?_⟩
    exact Reply.read.inj hv
  | readAll =>
    obtain ⟨passed, hmoves⟩ := moves_readAllFrom limit .initial c.index c.rest
    exact ⟨passed, hmoves, nofun, nofun⟩

/-- After some requests a cursor has moved over the tokens before it. -/
theorem moves_after (limit : Nat) (c : Cursor) (requests : List Request) :
    ∃ passed, Moves c passed (c.after limit requests) := by
  induction requests generalizing c with
  | nil => exact ⟨[], .refl c⟩
  | cons request requests ih =>
    obtain ⟨first, hfirst, -⟩ := moves_perform limit c request
    obtain ⟨others, hothers⟩ := ih (c.perform limit request).2
    exact ⟨_, hfirst.trans hothers⟩

theorem eq_ofPosition_of_moves {tokens passed : List Token} {c : Cursor}
    (h : Moves (ofTokens tokens) passed c) :
    c = ofPosition tokens c.index ∧ c.index = passed.length ∧ tokens = passed ++ c.rest := by
  obtain ⟨index, rest⟩ := c
  obtain ⟨hrest, hindex⟩ := h
  obtain rfl : tokens = passed ++ rest := hrest
  obtain rfl : index = passed.length := hindex.trans (Nat.zero_add _)
  exact ⟨by simp [ofPosition], rfl, rfl⟩

/-! ## Reading everything -/

/-- Expressions are read one after another, as long as there is a token, in so many rounds. -/
inductive Rounds (limit : Nat) : (rounds : Nat) → Cursor → Reading → Prop where
  | ended {c : Cursor} (h : c.atEnd.1 = true) : Rounds limit 0 c ⟨[], none, c.atEnd.2⟩
  | read {rounds : Nat} {c c' : Cursor} {v : Value} {reading : Reading} (h : c.atEnd.1 = false)
      (hread : c.atEnd.2.read limit = (.ok v, c')) (others : Rounds limit rounds c' reading) :
      Rounds limit (rounds + 1) c (reading.cons v)
  | failed {c c' : Cursor} {e : ReadError} (h : c.atEnd.1 = false)
      (hread : c.atEnd.2.read limit = (.error e, c')) : Rounds limit 1 c ⟨[], some e, c'⟩

/-- An expression is read from where the cursor stands past ends of lines. -/
theorem read_skipLines (limit : Nat) (c : Cursor) : c.skipLines.read limit = c.read limit := by
  obtain ⟨index, rest⟩ := c
  unfold skipLines
  fun_induction skipLines.go index rest with
  | case1 index rest ih => exact ih
  | case2 index rest hline => rfl

theorem atEnd_eq_true_iff {c : Cursor} : c.atEnd.1 = true ↔ meaningful c.rest = [] := by
  obtain ⟨passed, -, -, ⟨hrest, hnil⟩ | ⟨t, rest, hrest, -, hcons⟩⟩ := skipLines_cases c
  · simp [atEnd, hrest, hnil]
  · simp [atEnd, hrest, hcons]

theorem length_meaningful_of_read {limit : Nat} {c c' : Cursor} {v : Value}
    (h : c.read limit = (.ok v, c')) :
    (meaningful c'.rest).length < (meaningful c.rest).length := by
  obtain ⟨passed, hmoves, hok⟩ := moves_readFrom limit .initial c.index c.rest
  rw [← read, h] at hmoves hok
  obtain ⟨t, ht, hne⟩ := hok v rfl
  have hmem : t ∈ meaningful passed := List.mem_filter.mpr ⟨ht, by simpa using hne⟩
  have hpos := List.length_pos_of_mem hmem
  rw [show c.rest = passed ++ c'.rest from hmoves.rest, meaningful_append, List.length_append]
  omega

theorem readAll_eq_of_atEnd {limit : Nat} {c : Cursor} (h : meaningful c.rest = []) :
    c.readAll limit = ⟨[], none, c.atEnd.2⟩ := by
  obtain ⟨passed, -, hmoves, ⟨hrest, -⟩ | ⟨t, rest, -, -, hcons⟩⟩ := skipLines_cases c
  · have hpassed : c.rest = passed := by rw [hmoves.rest, hrest, List.append_nil]
    have hskip : c.skipLines = ⟨c.index + c.rest.length, []⟩ := by
      rw [hpassed, ← hmoves.index, ← hrest]
    rw [readAll, readAllFrom_eq, if_pos ⟨rfl, h⟩, atEnd, hskip]
  · rw [h] at hcons
    cases hcons

/-- Reading everything ends, after no more rounds than there are tokens other than ends of lines. -/
theorem exists_rounds (limit : Nat) (c : Cursor) :
    ∃ rounds ≤ (meaningful c.rest).length, Rounds limit rounds c (c.readAll limit) := by
  induction hlength : (meaningful c.rest).length using Nat.strongRecOn generalizing c with
  | ind n ih =>
    subst hlength
    by_cases hnil : meaningful c.rest = []
    · exact ⟨0, Nat.zero_le _, readAll_eq_of_atEnd hnil ▸ .ended (atEnd_eq_true_iff.mpr hnil)⟩
    · have hsome : c.atEnd.1 = false := by
        rw [← Bool.not_eq_true, atEnd_eq_true_iff]
        exact hnil
      have hread : c.atEnd.2.read limit = c.read limit := read_skipLines limit c
      rw [readAll_of_meaningful_ne_nil hnil]
      have hpos : 0 < (meaningful c.rest).length := List.length_pos_iff.mpr hnil
      rcases hone : c.read limit with ⟨e | v, c'⟩
      · exact ⟨1, hpos, .failed hsome (hread.trans hone)⟩
      · have hlt := length_meaningful_of_read hone
        obtain ⟨rounds, hle, hrounds⟩ := ih _ hlt c' rfl
        exact ⟨rounds + 1, by omega, .read hsome (hread.trans hone) hrounds⟩

/-! ## Where lines end -/

/-- Two cursors have the same tokens before them, but for ends of lines. -/
def Alike (c d : Cursor) : Prop := meaningful c.rest = meaningful d.rest

theorem alike_skipLines (c : Cursor) : Alike c.skipLines c := by
  obtain ⟨passed, hlines, hmoves, -⟩ := skipLines_cases c
  have hpassed : meaningful passed = [] := List.filter_eq_nil_iff.mpr (by simpa using hlines)
  rw [Alike, hmoves.rest, meaningful_append, hpassed, List.nil_append]

/-- An expression is read from the tokens that are not ends of lines. -/
theorem readFrom_meaningful (limit : Nat) (state : State) (index index' : Nat)
    (tokens : List Token) :
    (readFrom limit state index tokens).1 =
        (readFrom limit state index' (meaningful tokens)).1 ∧
      meaningful (readFrom limit state index tokens).2.rest =
        (readFrom limit state index' (meaningful tokens)).2.rest := by
  fun_induction readFrom limit state index tokens generalizing index' with
  | case1 state index => exact ⟨rfl, rfl⟩
  | case2 state index rest ih => exact ih index'
  | case3 state index t rest hline next hfeed ih =>
    rw [meaningful_cons hline, readFrom_cons _ _ _ hline, hfeed]
    exact ih (index' + 1)
  | case4 state index t rest hline v hfeed | case5 state index t rest hline e hfeed
  | case6 state index t rest hline e hfeed =>
    rw [meaningful_cons hline, readFrom_cons _ _ _ hline, hfeed]
    exact ⟨rfl, rfl⟩

theorem cursor_readAllFrom_meaningful (limit : Nat) (state : State) (index index' : Nat)
    (tokens : List Token) :
    meaningful (readAllFrom limit state index tokens).cursor.rest =
      (readAllFrom limit state index' (meaningful tokens)).cursor.rest := by
  fun_induction readAllFrom limit state index tokens generalizing index' with
  | case1 state index => rfl
  | case2 state index rest ih => exact ih index'
  | case3 state index t rest hline next hfeed ih | case4 state index t rest hline v hfeed ih =>
    rw [meaningful_cons hline, readAllFrom_cons _ _ _ hline, hfeed]
    exact ih (index' + 1)
  | case5 state index t rest hline e hfeed | case6 state index t rest hline e hfeed =>
    simp only [meaningful_cons hline, readAllFrom_cons _ _ _ hline, hfeed]

/-- Past ends of lines, cursors that differ in these only stand at the same token. -/
theorem alike_next {c d : Cursor} (h : Alike c d) :
    (c.skipLines.rest = [] ∧ d.skipLines.rest = []) ∨
      ∃ t ts us, c.skipLines.rest = t :: ts ∧ d.skipLines.rest = t :: us ∧
        meaningful ts = meaningful us := by
  rw [Alike] at h
  obtain ⟨-, -, -, ⟨hc, hcnil⟩ | ⟨t, ts, hc, -, hccons⟩⟩ := skipLines_cases c <;>
    obtain ⟨-, -, -, ⟨hd, hdnil⟩ | ⟨u, us, hd, -, hdcons⟩⟩ := skipLines_cases d
  · exact .inl ⟨hc, hd⟩
  · simp [hcnil, hdcons] at h
  · simp [hccons, hdnil] at h
  · rw [hccons, hdcons, List.cons.injEq] at h
    obtain ⟨rfl, hrest⟩ := h
    exact .inr ⟨t, ts, us, hc, hd, hrest⟩

/-- Cursors that differ in ends of lines only reply alike and stay so. -/
theorem alike_perform {c d : Cursor} (h : Alike c d) (limit : Nat) (request : Request) :
    (c.perform limit request).1 = (d.perform limit request).1 ∧
      Alike (c.perform limit request).2 (d.perform limit request).2 := by
  have hskip : Alike c.skipLines d.skipLines :=
    (alike_skipLines c).trans (h.trans (alike_skipLines d).symm)
  have hnext := alike_next h
  cases request with
  | atEnd =>
    refine ⟨congrArg Reply.atEnd ?_, hskip⟩
    rw [Bool.eq_iff_iff, atEnd_eq_true_iff, atEnd_eq_true_iff, h]
  | peek =>
    refine ⟨congrArg Reply.peeked ?_, hskip⟩
    rcases hnext with ⟨hc, hd⟩ | ⟨t, ts, us, hc, hd, -⟩
    · simp only [peek, hc, hd, List.head?_nil]
    · simp only [peek, hc, hd, List.head?_cons]
  | advance expected =>
    suffices (c.advance expected).1 = (d.advance expected).1 ∧
        Alike (c.advance expected).2 (d.advance expected).2 from
      ⟨congrArg Reply.advanced this.1, this.2⟩
    rcases hnext with ⟨hc, hd⟩ | ⟨t, ts, us, hc, hd, hrest⟩
    · rw [advance_of_nil hc, advance_of_nil hd]
      exact ⟨rfl, hskip⟩
    -- both cursors come to the same token, so they take it or refuse it together
    · rcases advance_cases hc expected with ⟨hkind, hctaken⟩ | ⟨kind, hsome, hkind, hcrefused⟩ <;>
        rcases advance_cases hd expected with ⟨hkind', hdtaken⟩ | ⟨kind', hsome', hkind', hdrefused⟩
      · rw [hctaken, hdtaken]
        exact ⟨rfl, hrest⟩
      · exact absurd (hkind kind' hsome') hkind'
      · exact absurd (hkind' kind hsome) hkind
      · obtain rfl : kind = kind' := Option.some.inj (hsome.symm.trans hsome')
        rw [hcrefused, hdrefused]
        exact ⟨rfl, hskip⟩
  | read =>
    obtain ⟨hc, hcrest⟩ := readFrom_meaningful limit .initial c.index 0 c.rest
    obtain ⟨hd, hdrest⟩ := readFrom_meaningful limit .initial d.index 0 d.rest
    rw [h] at hc hcrest
    exact ⟨congrArg Reply.read (hc.trans hd.symm), hcrest.trans hdrest.symm⟩
  | readAll =>
    obtain ⟨hcforms, hcerror⟩ := readAllFrom_meaningful limit .initial c.index 0 c.rest
    obtain ⟨hdforms, hderror⟩ := readAllFrom_meaningful limit .initial d.index 0 d.rest
    have hc := cursor_readAllFrom_meaningful limit .initial c.index 0 c.rest
    have hd := cursor_readAllFrom_meaningful limit .initial d.index 0 d.rest
    rw [h] at hcforms hcerror hc
    refine ⟨?_, hc.trans hd.symm⟩
    simp only [perform, readAll, hcforms.trans hdforms.symm, hcerror.trans hderror.symm]

theorem alike_after {c d : Cursor} (h : Alike c d) (limit : Nat) (requests : List Request) :
    Alike (c.after limit requests) (d.after limit requests) := by
  induction requests generalizing c d with
  | nil => exact h
  | cons request requests ih => exact ih (alike_perform h limit request).2

/-- So many tokens other than ends of lines have been passed as are no longer to come. -/
theorem length_meaningful_passed {tokens passed : List Token} {c : Cursor}
    (h : Moves (ofTokens tokens) passed c) :
    (meaningful (tokens.take c.index)).length + (meaningful c.rest).length =
      (meaningful tokens).length := by
  obtain ⟨-, hindex, rfl⟩ := eq_ofPosition_of_moves h
  rw [hindex, List.take_left, meaningful_append, List.length_append]

/-! ## The protocol -/

/-- Requests to a cursor over tokens, whatever was asked before and whatever failed.

The cursor stays within the tokens and never goes back. It passes only ends of lines when it is
asked about the end or for the next token, or refuses to advance. It passes some other token when it
reads an expression, so that reading everything ends. Where the tokens are the same but for ends of
lines, so are all replies, and so is how many of the other tokens have been passed. -/
theorem perform_protocol (limit : Nat) :
    (∀ (tokens : List Token) (requests : List Request) (request : Request)
        (c c' : Cursor) (reply : Reply),
      (ofTokens tokens).after limit requests = c → c.perform limit request = (reply, c') →
        c' = ofPosition tokens c'.index ∧
        c.index ≤ c'.index ∧ c'.index ≤ tokens.length ∧
        (reply.isLook = true →
          ∀ i, c.index ≤ i → i < c'.index → tokens[i]? = some .endOfLine) ∧
        (∀ v, reply = .read (.ok v) →
          ∃ i t, c.index ≤ i ∧ i < c'.index ∧ tokens[i]? = some t ∧ t ≠ .endOfLine) ∧
        ∃ rounds ≤ (meaningful c.rest).length, Rounds limit rounds c (c.readAll limit)) ∧
      ∀ (tokens tokens' : List Token), meaningful tokens = meaningful tokens' →
        ∀ (requests : List Request) (request : Request) (c c' d d' : Cursor)
          (reply reply' : Reply),
          (ofTokens tokens).after limit requests = c → c.perform limit request = (reply, c') →
          (ofTokens tokens').after limit requests = d → d.perform limit request = (reply', d') →
            reply = reply' ∧
            (meaningful (tokens.take c'.index)).length =
              (meaningful (tokens'.take d'.index)).length := by
  constructor
  · rintro tokens requests request c c' reply rfl hperform
    obtain ⟨before, hbefore⟩ := moves_after limit (ofTokens tokens) requests
    obtain ⟨passed, hpassed, hlook, hread⟩ :=
      moves_perform limit ((ofTokens tokens).after limit requests) request
    rw [hperform] at hpassed hlook hread
    dsimp only at hpassed hlook hread
    generalize (ofTokens tokens).after limit requests = c at hbefore hpassed ⊢
    obtain ⟨-, hindex, -⟩ := eq_ofPosition_of_moves hbefore
    obtain ⟨hposition, hindex', htokens⟩ := eq_ofPosition_of_moves (hbefore.trans hpassed)
    rw [List.length_append] at hindex'
    -- the tokens that the request passes stand between the two indices
    have hbetween : ∀ i (hi : i < passed.length), tokens[c.index + i]? = some passed[i] := by
      intro i hi
      rw [htokens, hindex, List.append_assoc, List.getElem?_append_right (by omega),
        Nat.add_sub_cancel_left, List.getElem?_append_left hi, List.getElem?_eq_getElem hi]
    have hlength : tokens.length = before.length + passed.length + c'.rest.length := by
      rw [htokens, List.length_append, List.length_append]
    refine ⟨hposition, by omega, by omega, ?_, ?_, exists_rounds limit c⟩
    · intro hisLook i hle hlt
      have hi := hbetween (i - c.index) (by omega)
      rw [hlook hisLook _ (List.getElem_mem _), Nat.add_sub_cancel' hle] at hi
      exact hi
    · intro v hv
      obtain ⟨t, ht, hne⟩ := hread v hv
      obtain ⟨i, hi, rfl⟩ := List.getElem_of_mem ht
      exact ⟨c.index + i, passed[i], by omega, by omega, hbetween i hi, hne⟩
  · rintro tokens tokens' h requests request c c' d d' reply reply' rfl hc rfl hd
    have halike : Alike (ofTokens tokens) (ofTokens tokens') := h
    obtain ⟨hreply, hrest⟩ := alike_perform (alike_after halike limit requests) limit request
    obtain ⟨cbefore, hcbefore⟩ := moves_after limit (ofTokens tokens) requests
    obtain ⟨dbefore, hdbefore⟩ := moves_after limit (ofTokens tokens') requests
    obtain ⟨cpassed, hcpassed, -⟩ :=
      moves_perform limit ((ofTokens tokens).after limit requests) request
    obtain ⟨dpassed, hdpassed, -⟩ :=
      moves_perform limit ((ofTokens tokens').after limit requests) request
    rw [hc] at hreply hrest hcpassed
    rw [hd] at hreply hrest hdpassed
    have hclength := length_meaningful_passed (hcbefore.trans hcpassed)
    have hdlength := length_meaningful_passed (hdbefore.trans hdpassed)
    rw [h, show meaningful c'.rest = meaningful d'.rest from hrest, ← hdlength] at hclength
    exact ⟨hreply, Nat.add_right_cancel hclength⟩

/-- An expression is read the same way from the tokens of two texts, after a refused request and a
closing parenthesis that nothing opens. -/
theorem perform_protocol_of_stray_parenthesis :
    let tokens := [.endOfLine, .openParen, .symbol "a", .endOfLine, .closeParen, .symbol "b"]
    let tokens' := [.openParen, .symbol "a", .closeParen, .endOfLine, .symbol "b", .endOfLine]
    let requests := [.advance (some .symbol), .advance none, .read, .read]
    let c := (ofTokens tokens).after 10 requests
    let d := (ofTokens tokens').after 10 requests
    (c.perform 10 .read).1 = .read (.ok (.symbol "b")) ∧
      c.index ≤ (c.perform 10 .read).2.index ∧
      (d.perform 10 .read).1 = .read (.ok (.symbol "b")) ∧
      (meaningful (tokens.take (c.perform 10 .read).2.index)).length =
        (meaningful (tokens'.take (d.perform 10 .read).2.index)).length := by
  intro tokens tokens' requests c d
  have hread : (c.perform 10 .read).1 = .read (.ok (.symbol "b")) := by rfl
  obtain ⟨-, hle, -⟩ := (perform_protocol 10).1 tokens requests .read c _ _ rfl rfl
  obtain ⟨hreply, hcount⟩ :=
    (perform_protocol 10).2 tokens tokens' (by decide) requests .read c _ d _ _ _ rfl rfl rfl rfl
  exact ⟨hread, hle, hreply.symm.trans hread, hcount⟩

end MiniScheme.Cursor
