import MiniScheme.Reader.Source

/-!
# The grammar of expressions

The reader is a stack machine. Here its language is given by a grammar, and the two are shown to
agree: whatever the machine completes is derived by the grammar, and whatever the grammar derives
is completed by the machine. A derivation carries the depth of nesting that it may use, so that the
limit of the reader is a part of the statement.

## Main definitions

* `Reader.Derives`: the grammar.
* `Reader.Covers`: what the stack of the machine says about the tokens it has read.
* `Reader.Runs`: the machine going through some tokens.

## Main statements

* `Reader.feed_covers`: one token keeps the stack true to the tokens read.
* `Cursor.forms_of_readAll`: what is read completely is derived.
* `Reader.Derives.isRead`, `Cursor.readAll_of_derives`: what is derived is read.
-/

namespace MiniScheme

namespace Reader

/-- The token that marks the tail of a chain, and is a symbol everywhere else. -/
def dot : Token := .symbol "."

/-- What tokens can amount to: an expression, or the items of a list after its first one. -/
inductive Phrase where
  | expr (v : Value)
  | items (vs : List Value)

/-- The tokens of an expression or of some items, nested at most as deep as given. -/
inductive Derives : (room : Nat) → List Token → Phrase → Prop where
  | quote {room : Nat} {ts : List Token} {v : Value} (h : Derives room ts (.expr v)) :
      Derives (room + 1) (.quoteMark :: ts) (.expr (.quoted v))
  | empty (room : Nat) : Derives (room + 2) [.openParen, .closeParen] (.expr .nil)
  | list {room : Nat} {ts us : List Token} {v : Value} {vs : List Value}
      (first : Derives room ts (.expr v)) (rest : Derives room us (.items vs)) :
      Derives (room + 2) (.openParen :: (ts ++ us ++ [.closeParen]))
        (.expr (.chain (v :: vs) .nil))
  | dotted {room : Nat} {ts us ws : List Token} {v w : Value} {vs : List Value}
      (first : Derives room ts (.expr v)) (rest : Derives room us (.items vs))
      (last : Derives room ws (.expr w)) :
      Derives (room + 2) (.openParen :: (ts ++ us ++ dot :: (ws ++ [.closeParen])))
        (.expr (.chain (v :: vs) w))
  | boolean (room : Nat) (b : Bool) : Derives room [.boolean b] (.expr (.boolean b))
  | integer (room : Nat) {lexeme : String} {n : Int}
      (h : Text.toInteger? lexeme.toList = some n) :
      Derives room [.integer lexeme] (.expr (.integer n))
  | string (room : Nat) (s : String) : Derives room [.string s] (.expr (.string s))
  | symbol (room : Nat) (name : String) : Derives room [.symbol name] (.expr (.symbol name))
  | none (room : Nat) : Derives room [] (.items [])
  | item {room : Nat} {us ts : List Token} {vs : List Value} {v : Value}
      (before : Derives room us (.items vs)) (h : Derives room ts (.expr v))
      (hdot : ts ≠ [dot]) : Derives room (us ++ ts) (.items (vs ++ [v]))

inductive Forms (room : Nat) : List Token → List Value → Prop where
  | nil : Forms room [] []
  | cons {ts us : List Token} {v : Value} {vs : List Value}
      (first : Derives room ts (.expr v)) (rest : Forms room us vs) :
      Forms room (ts ++ us) (v :: vs)

/-- Each of the expressions of some tokens is derived from a part of them. -/
theorem Forms.exists_derives {room : Nat} {ts : List Token} {forms : List Value}
    (h : Forms room ts forms) {v : Value} (hv : v ∈ forms) :
    ∃ us, (∀ t ∈ us, t ∈ ts) ∧ Derives room us (.expr v) := by
  induction h with
  | nil => simp at hv
  | @cons us ws u vs first rest ih =>
    rcases List.mem_cons.mp hv with rfl | hv
    · exact ⟨us, fun t ht => List.mem_append_left _ ht, first⟩
    · obtain ⟨xs, hsub, hx⟩ := ih hv
      exact ⟨xs, fun t ht => List.mem_append_right _ (hsub t ht), hx⟩

/-! ## Room for nesting -/

def room (limit : Nat) (stack : List Open) : Nat := limit - 1 - depth stack

theorem room_cons (limit : Nat) (o : Open) (stack : List Open) :
    room limit (o :: stack) = room limit stack - o.weight := by
  simp only [room, depth, List.foldr_cons]
  omega

theorem Open.weight_pos (o : Open) : 0 < o.weight := by cases o <;> simp [Open.weight]

/-- An expression can be opened exactly if there is room for it. -/
theorem push_eq (limit : Nat) (o : Open) (stack : List Open) :
    push limit o stack =
      if o.weight ≤ room limit stack then .proceed (.inside (o :: stack))
      else .fail .tooDeep true := by
  have hpos := o.weight_pos
  have hiff : depth (o :: stack) < limit ↔ o.weight ≤ room limit stack := by
    simp only [room, depth, List.foldr_cons]
    omega
  simp only [push, hiff]

/-! ## What the stack says -/

/-- The tokens after the bracket of a list that has some items so far, which are in reverse. -/
def Begun (room : Nat) (items : List Value) (us : List Token) : Prop :=
  (items = [] ∧ us = []) ∨
    ∃ v vs first rest, items = (v :: vs).reverse ∧ us = first ++ rest ∧
      Derives room first (.expr v) ∧ Derives room rest (.items vs)

/-- The tokens that have been read when some expressions are open. -/
def Covers (limit : Nat) : List Open → List Token → Prop
  | [], ts => ts = []
  | .quote :: stack, ts =>
    1 ≤ room limit stack ∧ ∃ before, Covers limit stack before ∧ ts = before ++ [.quoteMark]
  | .list items :: stack, ts =>
    2 ≤ room limit stack ∧ ∃ before us, Covers limit stack before ∧
      ts = before ++ .openParen :: us ∧ Begun (room limit stack - 2) items us
  | .dotted items :: stack, ts =>
    2 ≤ room limit stack ∧ items ≠ [] ∧ ∃ before us, Covers limit stack before ∧
      ts = before ++ .openParen :: (us ++ [dot]) ∧ Begun (room limit stack - 2) items us

/-- The tokens that have been read in a state of the machine. -/
def State.Covers (limit : Nat) : State → List Token → Prop
  | .inside stack, ts => Reader.Covers limit stack ts
  | .closing v stack, ts => ∃ before us, Reader.Covers limit stack before ∧ ts = before ++ us ∧
      Derives (room limit stack) (us ++ [.closeParen]) (.expr v)

/-- The tokens that have been read when a step has its outcome. -/
def Step.Covers (limit : Nat) : Step → List Token → Prop
  | .proceed next, ts => next.Covers limit ts
  | .done v, ts => Derives (limit - 1) ts (.expr v)
  | .fail _ _, _ => True

/-- Whether the dot would mark a tail: a list is open that has an item already. -/
def expectsTail : List Open → Bool
  | .list (_ :: _) :: _ => true
  | _ => false

theorem Begun.item {r : Nat} {items : List Value} {us ts : List Token} {v : Value}
    (h : Begun r items us) (hv : Derives r ts (.expr v)) (hdot : items ≠ [] → ts ≠ [dot]) :
    Begun r (v :: items) (us ++ ts) := by
  rcases h with ⟨rfl, rfl⟩ | ⟨w, ws, first, rest, rfl, rfl, hfirst, hrest⟩
  · exact .inr ⟨v, [], ts, [], rfl, by simp, hv, .none r⟩
  · refine .inr ⟨w, ws ++ [v], first, rest ++ ts, by simp, by simp, hfirst, ?_⟩
    exact .item hrest hv (hdot (by simp))

theorem Begun.close {r : Nat} {items : List Value} {us : List Token} (h : Begun r items us) :
    Derives (r + 2) (.openParen :: (us ++ [.closeParen])) (.expr (.chain items.reverse .nil)) := by
  rcases h with ⟨rfl, rfl⟩ | ⟨v, vs, first, rest, rfl, rfl, hfirst, hrest⟩
  · exact .empty r
  · simpa using Derives.list hfirst hrest

theorem Begun.close_dotted {r : Nat} {items : List Value} {us ws : List Token} {w : Value}
    (h : Begun r items us) (hne : items ≠ []) (hw : Derives r ws (.expr w)) :
    Derives (r + 2) (.openParen :: (us ++ dot :: (ws ++ [.closeParen])))
      (.expr (.chain items.reverse w)) := by
  rcases h with ⟨rfl, rfl⟩ | ⟨v, vs, first, rest, rfl, rfl, hfirst, hrest⟩
  · exact absurd rfl hne
  · simpa using Derives.dotted hfirst hrest hw

/-- Handing a derived value to the open expressions keeps them true to the tokens. -/
theorem deliver_covers {limit : Nat} {stack : List Open} {ts us : List Token} {v : Value}
    (h : Covers limit stack ts) (hv : Derives (room limit stack) us (.expr v))
    (hdot : us = [dot] → expectsTail stack = false) :
    (deliver v stack).Covers limit (ts ++ us) := by
  -- on the stack, since what completes a quotation is in turn delivered to what is open around it
  induction stack generalizing ts us v with
  | nil =>
    obtain rfl : ts = [] := h
    exact hv
  | cons o stack ih =>
    rw [room_cons] at hv
    cases o with
    | quote =>
      obtain ⟨hroom, before, hbefore, rfl⟩ := h
      obtain ⟨r, hr⟩ := Nat.exists_eq_add_of_le' hroom
      rw [hr] at hv
      have hq : Derives (room limit stack) (.quoteMark :: us) (.expr (.quoted v)) := by
        rw [hr]
        exact .quote hv
      simpa [deliver] using ih hbefore hq (by simp [dot])
    | list items =>
      obtain ⟨hroom, before, ws, hbefore, rfl, hbegun⟩ := h
      refine ⟨hroom, before, ws ++ us, hbefore, by simp, hbegun.item hv ?_⟩
      rintro hne rfl
      cases items with
      | nil => exact hne rfl
      | cons => simpa [expectsTail] using hdot rfl
    | dotted items =>
      obtain ⟨hroom, hne, before, ws, hbefore, rfl, hbegun⟩ := h
      obtain ⟨r, hr⟩ := Nat.exists_eq_add_of_le' hroom
      rw [hr] at hv hbegun
      refine ⟨before, .openParen :: (ws ++ dot :: us), hbefore, by simp, ?_⟩
      rw [hr]
      simpa using hbegun.close_dotted hne hv

/-- A token that is an expression by itself. -/
theorem deliver_token_covers {limit : Nat} {stack : List Open} {ts : List Token} {t : Token}
    {v : Value} (h : Covers limit stack ts) (hv : Derives (room limit stack) [t] (.expr v))
    (hdot : t = dot → expectsTail stack = false) :
    (deliver v stack).Covers limit (ts ++ [t]) :=
  deliver_covers h hv fun hts => hdot (List.singleton_inj.mp hts)

theorem push_covers {limit : Nat} {stack : List Open} {ts : List Token} {o : Open} {t : Token}
    (h : o.weight ≤ room limit stack → Covers limit (o :: stack) (ts ++ [t])) :
    (push limit o stack).Covers limit (ts ++ [t]) := by
  rw [push_eq]
  split
  · next hroom => exact h hroom
  · trivial

theorem feedExpression_covers {limit : Nat} {stack : List Open} {ts : List Token}
    (h : Covers limit stack ts) (t : Token) (hdot : t = dot → expectsTail stack = false) :
    (feedExpression limit stack t).Covers limit (ts ++ [t]) := by
  cases t with
  | openParen =>
    exact push_covers fun hroom => ⟨hroom, ts, [], h, rfl, .inl ⟨rfl, rfl⟩⟩
  | quoteMark => exact push_covers fun hroom => ⟨hroom, ts, h, rfl⟩
  | boolean b => exact deliver_token_covers h (.boolean _ b) hdot
  | integer lexeme =>
    rw [feedExpression]
    cases hn : Text.toInteger? lexeme.toList with
    | none => trivial
    | some n => exact deliver_token_covers h (.integer _ hn) hdot
  | string s => exact deliver_token_covers h (.string _ s) hdot
  | symbol name => exact deliver_token_covers h (.symbol _ name) hdot
  | closeParen => trivial
  | endOfLine => trivial

/-- One token keeps the machine true to the tokens that it has read. -/
theorem feed_covers {limit : Nat} {state : State} {ts : List Token}
    (h : state.Covers limit ts) (t : Token) :
    (feed limit state t).Covers limit (ts ++ [t]) := by
  unfold feed
  split
  · next v stack t =>
    obtain ⟨before, us, hbefore, rfl, hv⟩ := h
    split
    · next ht =>
      subst ht
      rw [List.append_assoc]
      exact deliver_covers hbefore hv (by cases us <;> simp [dot])
    · trivial
  · next items stack =>
    obtain ⟨hroom, before, us, hbefore, rfl, hbegun⟩ := h
    obtain ⟨r, hr⟩ := Nat.exists_eq_add_of_le' hroom
    have hlist : Derives (room limit stack) (.openParen :: (us ++ [.closeParen]))
        (.expr (.chain items.reverse .nil)) := by
      rw [hr] at hbegun ⊢
      exact hbegun.close
    simpa using deliver_covers hbefore hlist (by simp)
  · next v items stack =>
    obtain ⟨hroom, before, us, hbefore, rfl, hbegun⟩ := h
    exact ⟨hroom, by simp, before, us, hbefore, by simp [dot], hbegun⟩
  · next stack _ hdot =>
    refine feedExpression_covers h _ fun ht => ?_
    -- the dot after an item has been dealt with before
    match stack with
    | .list (v :: items) :: stack => exact (hdot v items stack ht rfl).elim
    | .list [] :: _ | .quote :: _ | .dotted _ :: _ | [] => rfl

end Reader

/-! ## What is read is derived -/

namespace Cursor

open Reader

def meaningful (ts : List Token) : List Token := ts.filter (· ≠ .endOfLine)

theorem meaningful_cons {t : Token} (h : t ≠ .endOfLine) (ts : List Token) :
    meaningful (t :: ts) = t :: meaningful ts := by simp [meaningful, h]

theorem meaningful_append (ts us : List Token) :
    meaningful (ts ++ us) = meaningful ts ++ meaningful us := List.filter_append ..

theorem forms_of_readAllFrom {limit : Nat} {state : State} {index : Nat} {tokens ts : List Token}
    (h : state.Covers limit ts) :
    ∃ us rest, ts ++ meaningful tokens = us ++ rest ∧
      Forms (limit - 1) us (readAllFrom limit state index tokens).forms ∧
      ((readAllFrom limit state index tokens).error = none → rest = []) := by
  fun_induction readAllFrom limit state index tokens generalizing ts with
  | case1 state index =>
    refine ⟨[], ts, by simp [meaningful], .nil, fun herror => ?_⟩
    have hstate : state = .initial := by simpa using herror
    subst hstate
    exact h
  | case2 state index rest ih => simpa [meaningful] using ih h
  | case3 state index t rest hline next hfeed ih =>
    have hnext := feed_covers h t
    rw [hfeed] at hnext
    simpa [meaningful_cons hline] using ih hnext
  | case4 state index t rest hline v hfeed ih =>
    have hdone := feed_covers h t
    rw [hfeed] at hdone
    have hinitial : State.initial.Covers limit [] := rfl
    obtain ⟨us, left, heq, hforms, hend⟩ := ih hinitial
    refine ⟨ts ++ [t] ++ us, left, ?_, .cons hdone hforms, hend⟩
    rw [List.append_assoc, ← heq]
    simp [meaningful_cons hline]
  | case5 => exact ⟨[], _, rfl, .nil, by simp⟩
  | case6 => exact ⟨[], _, rfl, .nil, by simp⟩

/-- The expressions that are read are derived from the first of the tokens, and from all of them
if there is no error. -/
theorem forms_of_readAll (limit : Nat) (tokens : List Token) :
    ∃ us rest, meaningful tokens = us ++ rest ∧
      Forms (limit - 1) us ((ofTokens tokens).readAll limit).forms ∧
      (((ofTokens tokens).readAll limit).error = none → rest = []) := by
  have hinitial : State.initial.Covers limit [] := rfl
  exact forms_of_readAllFrom hinitial

/-- If everything is read without an error, the tokens are those of the expressions. -/
theorem forms_of_readAll_ok {limit : Nat} {tokens : List Token}
    (herror : ((ofTokens tokens).readAll limit).error = none) :
    Forms (limit - 1) (meaningful tokens) ((ofTokens tokens).readAll limit).forms := by
  obtain ⟨us, rest, heq, hforms, hend⟩ := forms_of_readAll limit tokens
  rw [heq, hend herror, List.append_nil]
  exact hforms

end Cursor

/-! ## What is derived is read -/

namespace Reader

/-- The machine goes from the outcome of one step through some tokens to the outcome of another. -/
inductive Runs (limit : Nat) : Step → List Token → Step → Prop where
  | nil (step : Step) : Runs limit step [] step
  | cons {state : State} {t : Token} {ts : List Token} {last : Step}
      (h : Runs limit (feed limit state t) ts last) : Runs limit (.proceed state) (t :: ts) last

theorem Runs.trans {limit : Nat} {first middle last : Step} {ts us : List Token}
    (h : Runs limit first ts middle) (g : Runs limit middle us last) :
    Runs limit first (ts ++ us) last := by
  induction h with
  | nil => exact g
  | cons _ ih => exact .cons (ih g)

theorem Runs.single {limit : Nat} {state : State} {t : Token} {last : Step}
    (h : feed limit state t = last) : Runs limit (.proceed state) [t] last := by
  subst h
  exact .cons (.nil _)

theorem feed_inside {limit : Nat} {stack : List Open} {t : Token} (hclose : t ≠ .closeParen)
    (hdot : t = dot → expectsTail stack = false) :
    feed limit (.inside stack) t = feedExpression limit stack t := by
  unfold feed
  split
  · next heq => cases heq
  · exact absurd rfl hclose
  · next heq =>
    cases heq
    simpa [expectsTail] using hdot rfl
  · next heq _ _ => cases heq; rfl

theorem feed_openParen (limit : Nat) (stack : List Open) (h : 2 ≤ room limit stack) :
    feed limit (.inside stack) .openParen = .proceed (.inside (.list [] :: stack)) := by
  rw [feed_inside (by simp) (by simp [dot]), feedExpression, push_eq]
  exact if_pos h

theorem feed_quoteMark (limit : Nat) (stack : List Open) (h : 1 ≤ room limit stack) :
    feed limit (.inside stack) .quoteMark = .proceed (.inside (.quote :: stack)) := by
  rw [feed_inside (by simp) (by simp [dot]), feedExpression, push_eq]
  exact if_pos h

/-- What the machine does with the tokens of a phrase: an expression is handed to the innermost
open expression, and items are added to the list that they stand in. -/
def Phrase.IsRead (limit room : Nat) (ts : List Token) : Phrase → Prop
  | .expr v => ∀ stack, room ≤ Reader.room limit stack →
      (ts = [dot] → expectsTail stack = false) →
      Runs limit (.proceed (.inside stack)) ts (deliver v stack)
  | .items vs => ∀ items stack, items ≠ [] → room + 2 ≤ Reader.room limit stack →
      Runs limit (.proceed (.inside (.list items :: stack))) ts
        (.proceed (.inside (.list (vs.reverse ++ items) :: stack)))

/-- The first item of a list and those after it, read from the opening bracket on. -/
theorem runs_items {limit room : Nat} {stack : List Open} {ts us : List Token} {v : Value}
    {vs : List Value} (hroom : room + 2 ≤ Reader.room limit stack)
    (first : Phrase.IsRead limit room ts (.expr v))
    (rest : Phrase.IsRead limit room us (.items vs)) :
    Runs limit (.proceed (.inside stack)) (.openParen :: (ts ++ us))
      (.proceed (.inside (.list (v :: vs).reverse :: stack))) := by
  have hopen := feed_openParen limit stack (by omega)
  have hroom' : room ≤ Reader.room limit (.list [] :: stack) := by
    rw [room_cons]
    simp only [Open.weight]
    omega
  have hfirst := first (.list [] :: stack) hroom' (fun _ => rfl)
  have hrest := rest [v] stack (by simp) hroom
  rw [List.reverse_cons]
  exact .cons (hopen ▸ hfirst.trans hrest)

/-- The machine reads what the grammar derives. -/
theorem Derives.isRead {limit room : Nat} {ts : List Token} {phrase : Phrase}
    (h : Derives room ts phrase) : phrase.IsRead limit room ts := by
  -- on the derivation, for every stack that leaves it its room
  induction h with
  | @quote room ts v h ih =>
    intro stack hroom _
    have hquote := feed_quoteMark limit stack (by omega)
    have hroom' : room ≤ Reader.room limit (.quote :: stack) := by
      rw [room_cons]
      simp only [Open.weight]
      omega
    exact .cons (hquote ▸ ih (.quote :: stack) hroom' (fun _ => rfl))
  | empty room =>
    intro stack hroom _
    have hopen := feed_openParen limit stack (by omega)
    exact .cons (hopen ▸ Runs.single rfl)
  | @list room ts us v vs _ _ ihfirst ihrest =>
    intro stack hroom _
    have hclose : Runs limit (.proceed (.inside (.list (v :: vs).reverse :: stack))) [.closeParen]
        (deliver (.chain (v :: vs) .nil) stack) := by
      apply Runs.single
      simp [feed]
    exact (runs_items hroom ihfirst ihrest).trans hclose
  | @dotted room ts us ws v w vs _ _ _ ihfirst ihrest ihlast =>
    intro stack hroom _
    have hdot : Runs limit (.proceed (.inside (.list (v :: vs).reverse :: stack))) [dot]
        (.proceed (.inside (.dotted (v :: vs).reverse :: stack))) := by
      apply Runs.single
      obtain ⟨x, items, hitems⟩ := List.exists_cons_of_ne_nil (l := (v :: vs).reverse) (by simp)
      rw [hitems]
      rfl
    have hroom' : room ≤ Reader.room limit (.dotted (v :: vs).reverse :: stack) := by
      rw [room_cons]
      simp only [Open.weight]
      omega
    have hlast := ihlast (.dotted (v :: vs).reverse :: stack) hroom' (fun _ => rfl)
    have hclose : Runs limit (.proceed (.closing (.chain (v :: vs) w) stack)) [.closeParen]
        (deliver (.chain (v :: vs) w) stack) := Runs.single (by simp [feed])
    have htail : Runs limit (.proceed (.inside (.dotted (v :: vs).reverse :: stack)))
        (ws ++ [.closeParen]) (deliver (.chain (v :: vs) w) stack) := by
      refine hlast.trans ?_
      simpa [deliver] using hclose
    exact (runs_items hroom ihfirst ihrest).trans (hdot.trans htail)
  | boolean room b =>
    intro stack _ hdot
    exact Runs.single (feed_inside (by simp) (by simp [dot]))
  | integer room hn =>
    intro stack _ hdot
    apply Runs.single
    rw [feed_inside (by simp) (by simp [dot]), feedExpression, hn]
  | string room s =>
    intro stack _ hdot
    exact Runs.single (feed_inside (by simp) (by simp [dot]))
  | symbol room name =>
    intro stack _ hdot
    exact Runs.single (feed_inside (by simp) fun h => hdot (by rw [h]))
  | none room =>
    intro items stack _ _
    exact .nil _
  | @item room us ts vs v _ _ hdot ihbefore ih =>
    intro items stack hne hroom
    have hroom' : room ≤ Reader.room limit (.list (vs.reverse ++ items) :: stack) := by
      rw [room_cons]
      simp only [Open.weight]
      omega
    have hitem := ih (.list (vs.reverse ++ items) :: stack) hroom' (fun h => absurd h hdot)
    refine (ihbefore items stack hne hroom).trans ?_
    simpa [deliver] using hitem

/-- A token on which the machine goes on is no end of a line. -/
theorem ne_endOfLine_of_runs {limit : Nat} {state : State} {t : Token} {ts : List Token}
    {last : Step} (h : Runs limit (feed limit state t) ts last)
    (hlast : ∀ e consumed, last ≠ .fail e consumed) : t ≠ .endOfLine := by
  rintro rfl
  have hfail : ∃ e consumed, feed limit state .endOfLine = .fail e consumed := by
    cases state with
    | inside stack =>
      rw [feed_inside (by simp) (by simp [dot])]
      exact ⟨_, _, rfl⟩
    | closing v stack => exact ⟨_, _, rfl⟩
  obtain ⟨e, consumed, hfail⟩ := hfail
  rw [hfail] at h
  cases h
  exact hlast e consumed rfl

end Reader

namespace Cursor

open Reader

theorem readAllFrom_cons (limit : Nat) (state : State) (index : Nat) {t : Token}
    (h : t ≠ .endOfLine) (rest : List Token) :
    readAllFrom limit state index (t :: rest) =
      match feed limit state t with
      | .proceed next => readAllFrom limit next (index + 1) rest
      | .done v => (readAllFrom limit .initial (index + 1) rest).cons v
      | .fail e true => ⟨[], some e, ⟨index + 1, rest⟩⟩
      | .fail e false => ⟨[], some e, ⟨index, t :: rest⟩⟩ := by
  cases t with
  | endOfLine => exact absurd rfl h
  | _ => rfl

/-- Reading everything goes through the tokens of an expression and then on after it. -/
theorem readAllFrom_of_runs {limit : Nat} {state : State} {ts : List Token} {v : Value}
    (h : Runs limit (.proceed state) ts (.done v)) (index : Nat) (rest : List Token) :
    readAllFrom limit state index (ts ++ rest) =
      (readAllFrom limit .initial (index + ts.length) rest).cons v := by
  generalize hfirst : Step.proceed state = first at h
  generalize hlast : Step.done v = last at h
  induction h generalizing state index with
  | nil => subst hfirst; cases hlast
  | @cons state' t ts last h ih =>
    cases hfirst
    subst hlast
    have hline : t ≠ .endOfLine := ne_endOfLine_of_runs h (by simp)
    cases hfeed : feed limit state' t with
    | proceed next =>
      rw [List.cons_append, readAllFrom_cons _ _ _ hline, hfeed]
      have hrest := ih (index + 1) hfeed.symm rfl
      simpa [Nat.add_assoc, Nat.add_comm 1] using hrest
    | done u =>
      rw [hfeed] at h
      cases h
      rw [List.cons_append, readAllFrom_cons _ _ _ hline, hfeed]
      simp
    | fail e consumed =>
      rw [hfeed] at h
      cases h

/-- The tokens of one expression, followed by an end of a line, are read as that expression. -/
theorem readAll_of_derives {limit : Nat} {ts : List Token} {v : Value}
    (h : Derives (limit - 1) ts (.expr v)) :
    (ofTokens (ts ++ [.endOfLine])).readAll limit = ⟨[v], none, ⟨ts.length + 1, []⟩⟩ := by
  have hrun : Runs limit (.proceed .initial) ts (.done v) :=
    h.isRead [] (Nat.le_refl _) (fun _ => rfl)
  rw [readAll, ofTokens, readAllFrom_of_runs hrun]
  simp [readAllFrom, Reading.cons]

end Cursor

/-! ## A higher limit -/

namespace Reader

theorem push_of_le {limit limit' : Nat} (hle : limit ≤ limit') {o : Open} {stack : List Open}
    (h : push limit o stack ≠ .fail .tooDeep true) : push limit' o stack = push limit o stack := by
  unfold push at h ⊢
  by_cases hlt : depth (o :: stack) < limit
  · rw [if_pos hlt, if_pos (Nat.lt_of_lt_of_le hlt hle)]
  · exact absurd (if_neg hlt) h

theorem feedExpression_of_le {limit limit' : Nat} (hle : limit ≤ limit') {stack : List Open}
    {t : Token} (h : feedExpression limit stack t ≠ .fail .tooDeep true) :
    feedExpression limit' stack t = feedExpression limit stack t := by
  cases t with
  | openParen => exact push_of_le hle h
  | quoteMark => exact push_of_le hle h
  | _ => rfl

/-- A token that does not nest too deeply is read in the same way with a higher limit. -/
theorem feed_of_le {limit limit' : Nat} (hle : limit ≤ limit') {state : State} {t : Token}
    (h : feed limit state t ≠ .fail .tooDeep true) : feed limit' state t = feed limit state t := by
  fun_cases feed limit state t with
  | case1 | case2 | case3 | case4 => simp_all [feed]
  | case5 stack hclose hdot =>
    have hexpression : feed limit (.inside stack) t = feedExpression limit stack t := by
      simp_all [feed]
    rw [hexpression] at h
    simp_all [feed, feedExpression_of_le hle h]

end Reader

namespace Cursor

open Reader

/-- Tokens that do not nest too deeply are read in the same way with a higher limit. -/
theorem readAllFrom_of_le {limit limit' : Nat} (hle : limit ≤ limit') {state : State}
    {index : Nat} {tokens : List Token}
    (h : (readAllFrom limit state index tokens).error ≠ some .tooDeep) :
    readAllFrom limit' state index tokens = readAllFrom limit state index tokens := by
  fun_induction readAllFrom limit state index tokens with
  | case1 state index => rfl
  | case2 state index rest ih => exact ih h
  | case3 state index t rest hline next hfeed ih =>
    rw [readAllFrom_cons _ _ _ hline, feed_of_le hle (by simp [hfeed]), hfeed]
    exact ih h
  | case4 state index t rest hline v hfeed ih =>
    rw [readAllFrom_cons _ _ _ hline, feed_of_le hle (by simp [hfeed]), hfeed]
    exact congrArg (Reading.cons v) (ih h)
  | case5 state index t rest hline e hfeed =>
    have hdeep : e ≠ .tooDeep := by simpa using h
    rw [readAllFrom_cons _ _ _ hline, feed_of_le hle (by simp [hfeed, hdeep]), hfeed]
  | case6 state index t rest hline e hfeed =>
    rw [readAllFrom_cons _ _ _ hline, feed_of_le hle (by simp [hfeed]), hfeed]

end Cursor

namespace Source

/-- Reading everything succeeds exactly if the tokens do so without an error. -/
theorem readAll_eq_ok_iff {limit : Nat} {source : String} {forms : List Value} :
    readAll limit source = .ok forms ↔
      ∃ ts, tokens source = .ok ts ∧ ((Cursor.ofTokens ts).readAll limit).error = none ∧
        ((Cursor.ofTokens ts).readAll limit).forms = forms := by
  unfold readAll
  cases htokens : tokens source with
  | error e => simp [bind, Except.bind]
  | ok ts =>
    cases herror : ((Cursor.ofTokens ts).readAll limit).error <;>
      simp [bind, Except.bind, herror, pure, Except.pure, throw, throwThe, MonadExceptOf.throw]

/-- What can be read can be read with a higher limit. -/
theorem readAll_of_le {limit limit' : Nat} (hle : limit ≤ limit') {source : String}
    {forms : List Value} (h : readAll limit source = .ok forms) :
    readAll limit' source = .ok forms := by
  obtain ⟨ts, htokens, herror, hforms⟩ := readAll_eq_ok_iff.mp h
  have hdeep : ((Cursor.ofTokens ts).readAll limit).error ≠ some .tooDeep := by simp [herror]
  have hsame : (Cursor.ofTokens ts).readAll limit' = (Cursor.ofTokens ts).readAll limit :=
    Cursor.readAllFrom_of_le hle hdeep
  refine readAll_eq_ok_iff.mpr ⟨ts, htokens, ?_, ?_⟩
  · rw [hsame, herror]
  · rw [hsame, hforms]

end Source

end MiniScheme
