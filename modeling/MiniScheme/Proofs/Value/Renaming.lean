import Mathlib.Data.List.Forall2
import Mathlib.Logic.Relator
import MiniScheme.Event
import MiniScheme.Eval.Native
import MiniScheme.Proofs.Eval.Formals

/-!
# Values up to a renaming of places

A value names places of the store and installations of built-ins. Where one store has its tables at
other places than another one, the same value is there in other words. A renaming says which places
and which installations correspond; two values are the same under it if they differ in nothing else.

What is written, compared and computed does not depend on such names.

## Main definitions

* `Renaming`: which places and installations correspond.
* `Value.Same`, `Fault.Same`, `Event.Same`: what differs in these names only.
* `Renaming.Answers`: the same answer, or the same fault.

## Main statements

* `Value.Same.render_eq`, `Value.Same.obstacle?_eq`: the same value has the same text.
* `Value.Same.equal?_eq`: the same values compare alike.
* `Value.Same.imp`, `Value.Same.eq_of_fixes`: renamings that say more, and that change nothing.
* `Native.answers_compute`: a native answers the same arguments with the same value.
-/

namespace MiniScheme

/-- Which places of two stores correspond, and which installations: each to at most one. -/
structure Renaming where
  place : TableId → TableId → Prop
  installation : Nat → Nat → Prop
  biUnique_place : Relator.BiUnique place
  biUnique_installation : Relator.BiUnique installation

namespace Renaming

theorem biUnique_eq {α : Type} : Relator.BiUnique (@Eq α) :=
  ⟨fun _ _ _ h h' => h.trans h'.symm, fun _ _ _ h h' => h.symm.trans h'⟩

structure Fixes (r : Renaming) : Prop where
  place : ∀ {i j}, r.place i j → i = j
  installation : ∀ {m n}, r.installation m n → m = n

end Renaming

/-! ## Values -/

namespace Value

/-- Two values that differ in corresponding places and installations only. -/
inductive Same (r : Renaming) : Value → Value → Prop where
  | nil : Same r nil nil
  | integer (n : Int) : Same r (integer n) (integer n)
  | boolean (b : Bool) : Same r (boolean b) (boolean b)
  | string (s : String) : Same r (string s) (string s)
  | symbol (name : String) : Same r (symbol name) (symbol name)
  | pair {v v' w w' : Value} (left : Same r v w) (right : Same r v' w') :
      Same r (pair v v') (pair w w')
  | quoted {v w : Value} (h : Same r v w) : Same r (quoted v) (quoted w)
  | form (f : Form) {m n : Nat} (h : r.installation m n) : Same r (form f m) (form f n)
  | native (p : Native) {m n : Nat} (h : r.installation m n) : Same r (native p m) (native p n)
  | closure {formals formals' body body' : Value} {i j : TableId}
      (hformals : Same r formals formals') (hbody : Same r body body') (hplace : r.place i j) :
      Same r (closure formals body i) (closure formals' body' j)
  | elseMarker : Same r elseMarker elseMarker

namespace Same

variable {r r' : Renaming} {v w v' w' : Value}

theorem isProcedure_eq (h : v.Same r w) : v.isProcedure = w.isProcedure := by
  cases h <;> rfl

/-- The same value has the same text. -/
theorem render_eq (h : v.Same r w) (place : Place) (rest : List Char) :
    v.render place rest = w.render place rest := by
  induction h generalizing place rest with
  | pair _ _ ihl ihr => simp only [render, ihl, ihr]
  | quoted _ ih => simp only [render, ih]
  | closure _ _ _ ihf ihb => simp only [render, ihf, ihb]
  | _ => rfl

theorem write_eq (h : v.Same r w) : v.write = w.write := h.render_eq .alone []

/-- The same thing keeps the same value from being written. -/
theorem obstacle?_eq (h : v.Same r w) (depth : Nat) : v.obstacle? depth = w.obstacle? depth := by
  induction h generalizing depth with
  | pair _ _ ihl ihr => cases depth <;> simp only [obstacle?, ihl, ihr]
  | quoted _ ih => cases depth <;> simp only [obstacle?, ih]
  | closure _ _ _ ihf ihb => cases depth <;> simp only [obstacle?, ihf, ihb]
  | _ => rfl

/-- The same values compare alike. -/
theorem equal?_eq (h : v.Same r w) (h' : v'.Same r w') (depth : Nat) :
    v.equal? depth v' = w.equal? depth w' := by
  induction h generalizing v' w' depth with
  | pair _ _ ihl ihr =>
    cases h' with
    | pair hl hr =>
      cases depth with
      | zero => rfl
      | succ depth => simp only [equal?, ihl hl, ihr hr]
    | _ => simp [equal?]
  | quoted _ ih =>
    cases h' with
    | quoted h' => cases depth <;> simp only [equal?, ih h']
    | _ => simp [equal?]
  | form f h =>
    cases h' with
    | form g h' => simp [equal?, Relator.rel_eq r.biUnique_installation h h']
    | _ => simp [equal?]
  | native p h =>
    cases h' with
    | native q h' => simp [equal?, Relator.rel_eq r.biUnique_installation h h']
    | _ => simp [equal?]
  | closure _ _ h =>
    cases h' with
    | closure _ _ h' => simp [equal?, Relator.rel_eq r.biUnique_place h h']
    | _ => simp [equal?]
  | _ => cases h' <;> simp [equal?]

theorem eq_boolean_iff (h : v.Same r w) (b : Bool) : v = .boolean b ↔ w = .boolean b := by
  cases h <;> simp

theorem eq_nil_iff (h : v.Same r w) : v = .nil ↔ w = .nil := by
  cases h <;> simp

/-- The same value under a renaming that knows at least as much about it. -/
theorem imp (h : v.Same r w)
    (hplace : ∀ {formals body i j}, .closure formals body i ∈ v.closures → r.place i j →
      r'.place i j)
    (hinstallation : ∀ {m n}, r.installation m n → r'.installation m n) : v.Same r' w := by
  induction h with
  | nil => exact .nil
  | integer n => exact .integer n
  | boolean b => exact .boolean b
  | string s => exact .string s
  | symbol name => exact .symbol name
  | pair _ _ ihl ihr =>
    exact .pair (ihl fun hmem => hplace (List.mem_append_left _ hmem))
      (ihr fun hmem => hplace (List.mem_append_right _ hmem))
  | quoted _ ih => exact .quoted (ih hplace)
  | form f h => exact .form f (hinstallation h)
  | native p h => exact .native p (hinstallation h)
  | closure _ _ h ihf ihb =>
    exact .closure
      (ihf fun hmem => hplace (List.mem_cons_of_mem _ (List.mem_append_left _ hmem)))
      (ihb fun hmem => hplace (List.mem_cons_of_mem _ (List.mem_append_right _ hmem)))
      (hplace List.mem_cons_self h)
  | elseMarker => exact .elseMarker

theorem eq_of_fixes (h : v.Same r w) (hr : r.Fixes) : v = w := by
  induction h with
  | pair _ _ ihl ihr => rw [ihl, ihr]
  | quoted _ ih => rw [ih]
  | form f h => rw [hr.installation h]
  | native p h => rw [hr.installation h]
  | closure _ _ h ihf ihb => rw [ihf, ihb, hr.place h]
  | _ => rfl

/-- A value is the same as itself if the places in it correspond to themselves. -/
theorem refl (hplace : ∀ {formals body i}, .closure formals body i ∈ v.closures → r.place i i)
    (hinstallation : ∀ n, r.installation n n) : v.Same r v := by
  induction v with
  | nil => exact .nil
  | integer n => exact .integer n
  | boolean b => exact .boolean b
  | string s => exact .string s
  | symbol name => exact .symbol name
  | pair _ _ ihl ihr =>
    exact .pair (ihl fun hmem => hplace (List.mem_append_left _ hmem))
      (ihr fun hmem => hplace (List.mem_append_right _ hmem))
  | quoted _ ih => exact .quoted (ih hplace)
  | form f n => exact .form f (hinstallation n)
  | native p n => exact .native p (hinstallation n)
  | closure _ _ i ihf ihb =>
    exact .closure
      (ihf fun hmem => hplace (List.mem_cons_of_mem _ (List.mem_append_left _ hmem)))
      (ihb fun hmem => hplace (List.mem_cons_of_mem _ (List.mem_append_right _ hmem)))
      (hplace List.mem_cons_self)
  | elseMarker => exact .elseMarker

/-- The places in a value that is the same as another one have places that correspond to them. -/
theorem exists_place (h : v.Same r w) {formals body : Value} {i : TableId}
    (hmem : .closure formals body i ∈ v.closures) : ∃ j, r.place i j := by
  induction h with
  | pair _ _ ihl ihr => exact (List.mem_append.mp hmem).elim ihl ihr
  | quoted _ ih => exact ih hmem
  | closure _ _ h ihf ihb =>
    rcases List.mem_cons.mp hmem with heq | hmem
    · cases heq
      exact ⟨_, h⟩
    · exact (List.mem_append.mp hmem).elim ihf ihb
  | _ => cases hmem

theorem chain {vs ws : List Value} (h : List.Forall₂ (Same r) vs ws) :
    (Value.chain vs .nil).Same r (Value.chain ws .nil) := by
  induction h with
  | nil => exact .nil
  | cons hv _ ih => exact .pair hv ih

/-- The same chain has the same items, or ends in the same value. -/
theorem items_cases (h : v.Same r w) :
    (∃ vs ws, v.items = .ok vs ∧ w.items = .ok ws ∧ List.Forall₂ (Same r) vs ws) ∨
      ∃ last last', v.items = .error last ∧ w.items = .error last' ∧ last.Same r last' := by
  induction h with
  | nil => exact .inl ⟨[], [], rfl, rfl, .nil⟩
  | pair hl _ _ ihr =>
    rcases ihr with ⟨vs, ws, hv, hw, hsame⟩ | ⟨last, last', hv, hw, hsame⟩
    · exact .inl ⟨_, _, by rw [items, hv]; rfl, by rw [items, hw]; rfl, .cons hl hsame⟩
    · exact .inr ⟨last, last', by rw [items, hv]; rfl, by rw [items, hw]; rfl, hsame⟩
  | quoted h _ => exact .inr ⟨_, _, rfl, rfl, .quoted h⟩
  | closure hf hb h _ _ => exact .inr ⟨_, _, rfl, rfl, .closure hf hb h⟩
  | form f h => exact .inr ⟨_, _, rfl, rfl, .form f h⟩
  | native p h => exact .inr ⟨_, _, rfl, rfl, .native p h⟩
  | integer n => exact .inr ⟨_, _, rfl, rfl, .integer n⟩
  | boolean b => exact .inr ⟨_, _, rfl, rfl, .boolean b⟩
  | string s => exact .inr ⟨_, _, rfl, rfl, .string s⟩
  | symbol name => exact .inr ⟨_, _, rfl, rfl, .symbol name⟩
  | elseMarker => exact .inr ⟨_, _, rfl, rfl, .elseMarker⟩

end Same

end Value

/-! ## Faults -/

namespace Fault

inductive Same (r : Renaming) : Fault → Fault → Prop where
  | plain {f : Fault} (h : f.culprit? = none) : Same r f f
  | notAProcedure {v w : Value} (h : v.Same r w) : Same r (notAProcedure v) (notAProcedure w)
  | improperChain {v w : Value} (h : v.Same r w) : Same r (improperChain v) (improperChain w)
  | defineTarget {v w : Value} (h : v.Same r w) : Same r (defineTarget v) (defineTarget w)
  | branchCondition {v w : Value} (h : v.Same r w) : Same r (branchCondition v) (branchCondition w)
  | lambdaParameter {v w : Value} (h : v.Same r w) : Same r (lambdaParameter v) (lambdaParameter w)
  | bindingShape {v w : Value} (h : v.Same r w) : Same r (bindingShape v) (bindingShape w)
  | bindingName {v w : Value} (h : v.Same r w) : Same r (bindingName v) (bindingName w)
  | assignTarget {v w : Value} (h : v.Same r w) : Same r (assignTarget v) (assignTarget w)
  | notAnInteger (p : Native) {v w : Value} (h : v.Same r w) :
      Same r (notAnInteger p v) (notAnInteger p w)
  | notAPair (p : Native) {v w : Value} (h : v.Same r w) : Same r (notAPair p v) (notAPair p w)
  | bindNonSymbol {v w : Value} (h : v.Same r w) : Same r (bindNonSymbol v) (bindNonSymbol w)

namespace Same

variable {r : Renaming} {f g : Fault}

theorem kind_eq (h : f.Same r g) : f.kind = g.kind := by
  cases h <;> rfl

theorem message?_eq (h : f.Same r g) : f.message? = g.message? := by
  cases h with
  | plain _ => rfl
  | notAProcedure h | improperChain h | defineTarget h | branchCondition h | lambdaParameter h
  | bindingShape h | bindingName h | assignTarget h | notAnInteger _ h | notAPair _ h
  | bindNonSymbol h => simp only [message?, message?.shown, h.write_eq]

theorem eq_of_fixes (h : f.Same r g) (hr : r.Fixes) : f = g := by
  cases h with
  | plain _ => rfl
  | notAProcedure h | improperChain h | defineTarget h | branchCondition h | lambdaParameter h
  | bindingShape h | bindingName h | assignTarget h | notAnInteger _ h | notAPair _ h
  | bindNonSymbol h => rw [h.eq_of_fixes hr]

theorem ofWriteError (e : Value.WriteError) : Same r (ofWriteError e) (ofWriteError e) := by
  cases e <;> exact .plain rfl

/-- The same thing keeps the same fault from being worded. -/
theorem worded (h : f.Same r g) (depth : Nat) : (f.worded depth).Same r (g.worded depth) := by
  have hobstacle : f.culprit?.bind (·.obstacle? depth) = g.culprit?.bind (·.obstacle? depth) := by
    cases h with
    | plain _ => rfl
    | notAProcedure h | improperChain h | defineTarget h | branchCondition h | lambdaParameter h
    | bindingShape h | bindingName h | assignTarget h | notAnInteger _ h | notAPair _ h
    | bindNonSymbol h => exact h.obstacle?_eq depth
  unfold Fault.worded
  rw [hobstacle]
  split
  · exact h
  · exact .ofWriteError _

end Same

end Fault

/-! ## Events -/

namespace Event

inductive Same (r : Renaming) : Event → Event → Prop where
  | read {v w : Value} (h : v.Same r w) : Same r (read v) (read w)
  | evaluated {v w : Value} (h : v.Same r w) : Same r (evaluated v) (evaluated w)
  | applying {v v' w w' : Value} (h : v.Same r w) (h' : v'.Same r w') :
      Same r (applying v v') (applying w w')
  | binding {v v' w w' : Value} (h : v.Same r w) (h' : v'.Same r w') :
      Same r (binding v v') (binding w w')
  | bindingOperands (x : String) {v w : Value} (h : v.Same r w) :
      Same r (bindingOperands x v) (bindingOperands x w)

namespace Same

variable {r : Renaming} {e e' : Event}

theorem obstacle?_eq (h : e.Same r e') (depth : Nat) : e.obstacle? depth = e'.obstacle? depth := by
  cases h with
  | read h | evaluated h | bindingOperands _ h =>
    simp [obstacle?, values, h.obstacle?_eq]
  | applying h h' | binding h h' =>
    simp [obstacle?, values, List.findSome?_cons, h.obstacle?_eq, h'.obstacle?_eq]

theorem eq_of_fixes (h : e.Same r e') (hr : r.Fixes) : e = e' := by
  cases h with
  | read h | evaluated h | bindingOperands _ h => rw [h.eq_of_fixes hr]
  | applying h h' | binding h h' => rw [h.eq_of_fixes hr, h'.eq_of_fixes hr]

end Same

end Event

/-! ## Answers without a store -/

namespace Renaming

variable {r : Renaming} {α β α' β' : Type}

/-- Two computations give answers that are related, or the same fault. -/
inductive Answers (r : Renaming) (R : α → β → Prop) : Except Fault α → Except Fault β → Prop where
  | ok {a : α} {b : β} (h : R a b) : Answers r R (.ok a) (.ok b)
  | error {f g : Fault} (h : f.Same r g) : Answers r R (.error f) (.error g)

namespace Answers

variable {R : α → β → Prop} {R' : α' → β' → Prop}

theorem bind {x : Except Fault α} {y : Except Fault β} {k : α → Except Fault α'}
    {l : β → Except Fault β'} (h : r.Answers R x y) (hk : ∀ a b, R a b → r.Answers R' (k a) (l b)) :
    r.Answers R' (x >>= k) (y >>= l) := by
  cases h with
  | ok h => exact hk _ _ h
  | error h => exact .error h

theorem map {x : Except Fault α} {y : Except Fault β} {k : α → α'} {l : β → β'}
    (h : r.Answers R x y) (hk : ∀ a b, R a b → R' (k a) (l b)) :
    r.Answers R' (k <$> x) (l <$> y) := by
  cases h with
  | ok h => exact .ok (hk _ _ h)
  | error h => exact .error h

theorem plain {f : Fault} (h : f.culprit? = none) : r.Answers R (.error f) (.error f) :=
  .error (.plain h)

end Answers

end Renaming

namespace Value.Same

variable {r : Renaming} {v w : Value}

theorem properItems (h : v.Same r w) :
    r.Answers (List.Forall₂ (Same r)) v.properItems w.properItems := by
  unfold Value.properItems
  rcases h.items_cases with ⟨vs, ws, hv, hw, hsame⟩ | ⟨last, last', hv, hw, hsame⟩
  · rw [hv, hw]
    exact .ok hsame
  · rw [hv, hw]
    exact .error (.improperChain hsame)

theorem find?_isSymbol {vs ws : List Value} (h : List.Forall₂ (Same r) vs ws) :
    Option.Rel (Same r) (vs.find? (!checkFormals.isSymbol ·))
      (ws.find? (!checkFormals.isSymbol ·)) := by
  induction h with
  | nil => exact .none
  | cons hv _ ih =>
    have hv' := hv
    cases hv with
    | symbol x => exact ih
    | _ => exact .some hv'

/-- The same parameters pass the check, or fail it for the same reason. -/
theorem checkFormals (h : v.Same r w) :
    r.Answers (fun _ _ => True) v.checkFormals w.checkFormals := by
  by_cases hv : ∃ x, v = .symbol x
  · obtain ⟨x, rfl⟩ := hv
    cases h
    exact .ok trivial
  · have hw : ∀ x, w ≠ .symbol x := by
      rintro x rfl
      cases h
      exact hv ⟨x, rfl⟩
    rw [checkFormals_eq (not_exists.mp hv), checkFormals_eq hw]
    refine h.properItems.bind fun vs ws hsame => ?_
    have hfind := find?_isSymbol hsame
    generalize vs.find? (!Value.checkFormals.isSymbol ·) = a at hfind ⊢
    generalize ws.find? (!Value.checkFormals.isSymbol ·) = b at hfind ⊢
    cases hfind with
    | none => exact .ok trivial
    | some hv => exact .error (.lambdaParameter hv)

end Value.Same

/-! ## Natives -/

namespace Native

variable {r : Renaming}

theorem answers_integers (p : Native) {vs ws : List Value}
    (h : List.Forall₂ (Value.Same r) vs ws) :
    r.Answers Eq (p.integers vs) (p.integers ws) := by
  induction h with
  | nil => exact .ok rfl
  | cons hv _ ih =>
    have hv' := hv
    cases hv with
    | integer n => exact ih.map fun _ _ => congrArg (n :: ·)
    | _ => exact .error (.notAnInteger p hv')

theorem answers_integerPair (p : Native) {v v' w w' : Value} (h : v.Same r w) (h' : v'.Same r w') :
    r.Answers Eq (p.integerPair v v') (p.integerPair w w') := by
  have hv := h
  have hv' := h'
  cases h with
  | integer m =>
    cases h' with
    | integer n => exact .ok rfl
    | _ => exact .error (.notAnInteger p hv')
  | _ => exact .error (.notAnInteger p hv)

theorem answers_quotients (n : Int) (ds : List Int) :
    r.Answers Eq (quotients n ds) (quotients n ds) := by
  fun_induction quotients n ds with
  | case1 n => exact .ok rfl
  | case2 n ds => exact .plain rfl
  | case3 n d ds hd ih => exact ih

theorem answers_remainder (n d : Int) : r.Answers Eq (remainder n d) (remainder n d) := by
  unfold remainder
  split
  · exact .plain rfl
  · exact .ok rfl

/-- A native that takes a fixed number of arguments refuses any other number of them. -/
theorem compute_of_length_ne {p : Native} {args : List Value} (hfixed : p.arity ≠ 0)
    (h : args.length ≠ p.arity) (depth : Nat) :
    p.compute depth args = .error (.nativeCount p p.arity args.length) := by
  unfold compute
  split
  -- the answers to the right number of arguments, and then the refusal
  all_goals solve | exact absurd rfl hfixed | exact absurd rfl h | rfl

/-- A native answers the same arguments with the same value, or with the same fault. -/
theorem answers_compute (depth : Nat) (p : Native) {vs ws : List Value}
    (h : List.Forall₂ (Value.Same r) vs ws) :
    r.Answers (Value.Same r) (p.compute depth vs) (p.compute depth ws) := by
  by_cases hcount : p.arity ≠ 0 ∧ vs.length ≠ p.arity
  · obtain ⟨hfixed, hvs⟩ := hcount
    have hws : ws.length ≠ p.arity := h.length_eq ▸ hvs
    rw [compute_of_length_ne hfixed hvs, compute_of_length_ne hfixed hws, h.length_eq]
    exact .plain rfl
  have hlength (hfixed : p.arity ≠ 0) : vs.length = p.arity :=
    not_not.mp fun hvs => hcount ⟨hfixed, hvs⟩
  have hsingle (hp : p.arity = 1) : ∃ a a', a.Same r a' ∧ vs = [a] ∧ ws = [a'] := by
    obtain ⟨a, rfl⟩ := List.length_eq_one_iff.mp ((hlength (by simp [hp])).trans hp)
    obtain _ | ⟨ha, ⟨⟩⟩ := h
    exact ⟨a, _, ha, rfl, rfl⟩
  have hpair (hp : p.arity = 2) : ∃ a a' b b', a.Same r a' ∧ b.Same r b' ∧ vs = [a, b] ∧
      ws = [a', b'] := by
    obtain ⟨a, b, rfl⟩ := List.length_eq_two.mp ((hlength (by simp [hp])).trans hp)
    obtain _ | ⟨ha, _ | ⟨hb, ⟨⟩⟩⟩ := h
    exact ⟨a, _, b, _, ha, hb, rfl, rfl⟩
  cases p with
  | add =>
    refine (answers_integers add h).bind ?_
    rintro ns _ rfl
    exact .ok (.integer _)
  | subtract =>
    refine (answers_integers subtract h).bind ?_
    rintro ns _ rfl
    cases ns with
    | nil => exact .plain rfl
    | cons n ns => exact .ok (.integer _)
  | multiply =>
    refine (answers_integers multiply h).bind ?_
    rintro ns _ rfl
    exact .ok (.integer _)
  | divide =>
    refine (answers_integers divide h).bind ?_
    rintro ns _ rfl
    cases ns with
    | nil => exact .plain rfl
    | cons n ds =>
      refine (answers_quotients n ds).bind ?_
      rintro q _ rfl
      exact .ok (.integer q)
  | list => exact .ok (.chain h)
  | modulo =>
    obtain ⟨a, a', b, b', ha, hb, rfl, rfl⟩ := hpair rfl
    refine (answers_integerPair modulo ha hb).bind ?_
    rintro ⟨n, d⟩ _ rfl
    refine (answers_remainder n d).bind ?_
    rintro q _ rfl
    exact .ok (.integer q)
  | greater =>
    obtain ⟨a, a', b, b', ha, hb, rfl, rfl⟩ := hpair rfl
    refine (answers_integerPair greater ha hb).bind ?_
    rintro ⟨m, n⟩ _ rfl
    exact .ok (.boolean _)
  | less =>
    obtain ⟨a, a', b, b', ha, hb, rfl, rfl⟩ := hpair rfl
    refine (answers_integerPair less ha hb).bind ?_
    rintro ⟨m, n⟩ _ rfl
    exact .ok (.boolean _)
  | equal =>
    obtain ⟨a, a', b, b', ha, hb, rfl, rfl⟩ := hpair rfl
    simp only [compute, ha.equal?_eq hb]
    split
    · exact .ok (.boolean _)
    · exact .plain rfl
  | cons =>
    obtain ⟨a, a', b, b', ha, hb, rfl, rfl⟩ := hpair rfl
    exact .ok (.pair ha hb)
  | apply =>
    -- it has no answer of its own to two arguments either
    obtain ⟨a, a', b, b', -, -, rfl, rfl⟩ := hpair rfl
    exact .plain rfl
  | not =>
    obtain ⟨a, a', ha, rfl, rfl⟩ := hsingle rfl
    simp only [compute, ha.eq_boolean_iff]
    exact .ok (.boolean _)
  | isNull =>
    obtain ⟨a, a', ha, rfl, rfl⟩ := hsingle rfl
    simp only [compute, ha.eq_nil_iff]
    exact .ok (.boolean _)
  | length =>
    obtain ⟨a, a', ha, rfl, rfl⟩ := hsingle rfl
    refine ha.properItems.bind fun us us' hus => ?_
    rw [hus.length_eq]
    exact .ok (.integer _)
  | car =>
    obtain ⟨a, a', ha, rfl, rfl⟩ := hsingle rfl
    have ha' := ha
    cases ha with
    | pair hl hr => exact .ok hl
    | _ => exact .error (.notAPair car ha')
  | cdr =>
    obtain ⟨a, a', ha, rfl, rfl⟩ := hsingle rfl
    have ha' := ha
    cases ha with
    | pair hl hr => exact .ok hr
    | _ => exact .error (.notAPair cdr ha')

end Native

end MiniScheme
