import MiniScheme.Proofs.Session.Process

/-!
# Equality is structural

The comparison of two values walks along the chain of the first one and descends into items and
quoted values only. It says whether the two are the same tree, in which closures and built-ins are
leaves that are the same only if they are one and the same.

## Main definitions

* `Value.Alike`: the same tree.
* `Value.nesting`: how deep items and quoted values are nested.
* `Value.Coherent`: a captured table belongs to one closure.

## Main statements

* `Value.equal?_eq_some_true_iff`, `Value.isSome_equal?`: the answers, and when there is one.
* `Value.equal?_comm`: both orders answer alike, at every depth.
* `Value.Alike.eq`: what is the same tree among coherent values is the same value.
* `Process.Reached.coherent`: all values of a process are coherent.
* `Value.equal?_structural`: what the comparison means.
-/

namespace MiniScheme

namespace Value

/-- The same tree: leaves are compared by kind and payload, built-ins by the installation that made
them, and a closure by the table that it captured when it was made. -/
inductive Alike : Value → Value → Prop where
  | nil : Alike nil nil
  | integer (n : Int) : Alike (integer n) (integer n)
  | boolean (b : Bool) : Alike (boolean b) (boolean b)
  | string (s : String) : Alike (string s) (string s)
  | symbol (name : String) : Alike (symbol name) (symbol name)
  | pair {a b c d : Value} (left : Alike a c) (right : Alike b d) : Alike (pair a b) (pair c d)
  | quoted {a b : Value} (h : Alike a b) : Alike (quoted a) (quoted b)
  | form (f : Form) (installation : Nat) : Alike (form f installation) (form f installation)
  | native (p : Native) (installation : Nat) :
      Alike (native p installation) (native p installation)
  | closure (formals body formals' body' : Value) (captured : TableId) :
      Alike (closure formals body captured) (closure formals' body' captured)
  | elseMarker : Alike elseMarker elseMarker

/-- How deep the items of chains and quoted values are nested. A chain counts once, however long
it is. -/
def nesting : Value → Nat
  | pair left right => max (left.nesting + 1) right.nesting
  | quoted v => v.nesting + 1
  | _ => 0

/-- Closures of two values that captured the same table are the same. -/
def Coherent (v w : Value) : Prop :=
  ∀ formals body formals' body' captured, .closure formals body captured ∈ v.closures →
    .closure formals' body' captured ∈ w.closures → formals = formals' ∧ body = body'

variable {u v w : Value} {depth : Nat}

/-! ## The same tree -/

theorem skeleton_eq_iff_alike : v.skeleton = w.skeleton ↔ Alike v w := by
  constructor
  · intro h
    induction v generalizing w with
    | pair a b iha ihb =>
      cases w <;> simp only [skeleton, pair.injEq, reduceCtorEq] at h
      exact .pair (iha h.1) (ihb h.2)
    | quoted a iha =>
      cases w <;> simp only [skeleton, quoted.injEq, reduceCtorEq] at h
      exact .quoted (iha h)
    | closure formals body captured =>
      cases w <;> simp only [skeleton, closure.injEq, true_and, reduceCtorEq] at h
      exact h ▸ .closure ..
    | _ =>
      cases w <;> simp only [skeleton, reduceCtorEq] at h
      cases h
      constructor
  · intro h
    induction h with
    | pair _ _ ihl ihr => simp only [skeleton, ihl, ihr]
    | quoted _ ih => simp only [skeleton, ih]
    | _ => rfl

instance : Decidable (Alike v w) := decidable_of_iff _ skeleton_eq_iff_alike

theorem alike_equivalence : Equivalence Alike where
  refl _ := skeleton_eq_iff_alike.mp rfl
  symm h := skeleton_eq_iff_alike.mp (skeleton_eq_iff_alike.mpr h).symm
  trans h h' := skeleton_eq_iff_alike.mp
    ((skeleton_eq_iff_alike.mpr h).trans (skeleton_eq_iff_alike.mpr h'))

namespace Alike

/-- Among coherent values, closures that captured the same table do not differ in anything. -/
theorem eq (h : Alike v w) (hcoherent : Coherent v w) : v = w := by
  induction h with
  | pair _ _ ihl ihr =>
    have hleft := ihl fun f b f' b' t h h' =>
      hcoherent f b f' b' t (List.mem_append_left _ h) (List.mem_append_left _ h')
    have hright := ihr fun f b f' b' t h h' =>
      hcoherent f b f' b' t (List.mem_append_right _ h) (List.mem_append_right _ h')
    rw [hleft, hright]
  | quoted _ ih => rw [ih hcoherent]
  | closure formals body formals' body' captured =>
    obtain ⟨rfl, rfl⟩ := hcoherent _ _ _ _ captured List.mem_cons_self List.mem_cons_self
    rfl
  | _ => rfl

end Alike

/-! ## The comparison -/

/-- An answer says whether the two are the same tree. -/
theorem equal?_eq_some {answer : Bool} (h : v.equal? depth w = some answer) :
    answer = decide (Alike v w) := by
  rw [eq_of_equal? h]
  exact decide_eq_decide.mpr skeleton_eq_iff_alike

/-- Both orders answer alike, also if the depth does not suffice. -/
theorem equal?_comm (v w : Value) (depth : Nat) : v.equal? depth w = w.equal? depth v := by
  induction v generalizing depth w with
  | pair a b iha ihb =>
    cases w with
    | pair c d =>
      cases depth with
      | zero => rfl
      | succ depth => simp only [equal?, iha c, ihb d]
    | _ => simp [equal?]
  | quoted a iha =>
    cases w with
    | quoted b =>
      cases depth with
      | zero => rfl
      | succ depth => simp only [equal?, iha b]
    | _ => simp [equal?]
  | _ => cases w <;> simp [equal?, eq_comm]

/-- There is an answer if the depth suffices for one of the two. -/
theorem isSome_equal? (h : v.nesting ≤ depth ∨ w.nesting ≤ depth) :
    (v.equal? depth w).isSome = true := by
  have hfirst (v w : Value) (depth : Nat) (hv : v.nesting ≤ depth) :
      (v.equal? depth w).isSome = true := by
    induction v generalizing depth w with
    | pair a b iha ihb =>
      cases w with
      | pair c d =>
        rw [nesting, Nat.max_le] at hv
        obtain ⟨ha, hb⟩ := hv
        cases depth with
        | zero => cases ha
        | succ depth =>
          obtain ⟨answer, hac⟩ :=
            Option.isSome_iff_exists.mp (iha c depth (Nat.le_of_succ_le_succ ha))
          cases answer <;> simp only [equal?, hac, Option.isSome_some, ihb d _ hb]
      | _ => simp [equal?]
    | quoted a iha =>
      cases w with
      | quoted b =>
        cases depth with
        | zero => cases hv
        | succ depth => exact iha b depth (Nat.le_of_succ_le_succ hv)
      | _ => simp [equal?]
    | _ => cases w <;> simp [equal?]
  rcases h with hv | hw
  · exact hfirst v w depth hv
  · rw [equal?_comm]
    exact hfirst w v depth hw

/-- The two are found to be equal if they are the same tree and the depth suffices for it. -/
theorem equal?_eq_some_true_iff :
    v.equal? depth w = some true ↔ Alike v w ∧ v.nesting ≤ depth := by
  constructor
  · intro h
    refine ⟨by simpa using equal?_eq_some h, ?_⟩
    fun_induction equal? v depth w with
    | case1 => cases h
    | case2 a b c d depth hac iha ihb =>
      exact Nat.max_le.mpr ⟨Nat.succ_le_succ (iha hac), ihb h⟩
    | case3 a b c d depth hac => exact absurd h hac
    | case4 => cases h
    | case5 a b depth iha => exact Nat.succ_le_succ (iha h)
    | case6 => exact Nat.zero_le _
    | case7 depth v w hpair hquoted =>
      obtain rfl : v = w := by simpa using h
      cases v with
      | pair a b => exact (hpair a b a b rfl rfl).elim
      | quoted a => exact (hquoted a a rfl rfl).elim
      | _ => exact Nat.zero_le _
  · rintro ⟨halike, hdepth⟩
    obtain ⟨answer, hanswer⟩ := Option.isSome_iff_exists.mp (isSome_equal? (w := w) (.inl hdepth))
    rw [hanswer, equal?_eq_some hanswer, decide_eq_true halike]

end Value

/-! ## Values of a process -/

/-- Closures are made together with the tables that they capture, one for each. -/
theorem Process.Reached.coherent {p : Process} (h : p.Reached) {v w : Value} (hv : p.Holds v)
    (hw : p.Holds w) : v.Coherent w := by
  obtain ⟨l, hl⟩ := h.ordered
  intro formals body formals' body' captured hmem hmem'
  have hfirst := hl.closures ⟨v, hv, hmem⟩
  rw [hl.closures ⟨w, hw, hmem'⟩] at hfirst
  cases hfirst
  exact ⟨rfl, rfl⟩

/-- **Equality.** At any depth of nesting:

* Two values are found to be equal if and only if they are the same tree and the depth suffices for
  it, and found to be unequal only if they are different trees. There is an answer whenever the
  depth suffices for one of the two. Whether they differ is the negation of this.
* Being the same tree is an equivalence, and so is being found equal: a value is equal to itself if
  the depth suffices for it, both orders answer alike, and what is equal to an equal value is equal.
* The native `=` answers whether its arguments are the same tree, and fails only because of the
  depth, when this suffices for neither.
* Values that are the same tree are the same value and have the same text, if the closures in them
  that captured the same table are the same. All closures of a process are. -/
theorem Value.equal?_structural (u v w : Value) (depth : Nat) :
    ((v.equal? depth w = some true ↔ v.Alike w ∧ v.nesting ≤ depth) ∧
      (v.equal? depth w = some false → ¬ v.Alike w) ∧
      (v.nesting ≤ depth ∨ w.nesting ≤ depth →
        v.equal? depth w = some (decide (v.Alike w)) ∧
        v.differ? depth w = some (decide (¬ v.Alike w)))) ∧
    Equivalence Alike ∧
    ((v.nesting ≤ depth → v.equal? depth v = some true) ∧
      v.equal? depth w = w.equal? depth v ∧
      (u.equal? depth v = some true → v.equal? depth w = some true →
        u.equal? depth w = some true)) ∧
    ((∀ answer, Native.compute depth .equal [v, w] = .ok answer →
        answer = .boolean (decide (v.Alike w))) ∧
      ∀ f, Native.compute depth .equal [v, w] = .error f →
        f = .tooDeep ∧ depth < v.nesting ∧ depth < w.nesting) ∧
    (v.Coherent w → v.Alike w → v = w ∧ ∀ depth', v.text depth' = w.text depth') ∧
    ∀ p : Process, p.Reached → p.Holds v → p.Holds w → v.Coherent w := by
  refine ⟨⟨equal?_eq_some_true_iff, fun h => by simpa using equal?_eq_some h, fun h => ?_⟩,
    alike_equivalence, ⟨fun h => ?_, equal?_comm v w depth, fun huv hvw => ?_⟩, ⟨?_, ?_⟩,
    fun hcoherent halike => ?_, fun p hp => hp.coherent⟩
  · obtain ⟨answer, hanswer⟩ := Option.isSome_iff_exists.mp (isSome_equal? h)
    rw [differ?, hanswer, equal?_eq_some hanswer]
    simp
  · exact equal?_eq_some_true_iff.mpr ⟨alike_equivalence.refl v, h⟩
  · obtain ⟨huv, hdepth⟩ := equal?_eq_some_true_iff.mp huv
    exact equal?_eq_some_true_iff.mpr
      ⟨alike_equivalence.trans huv (equal?_eq_some_true_iff.mp hvw).1, hdepth⟩
  · intro answer h
    cases hanswer : v.equal? depth w with
    | none => simp [Native.compute, hanswer] at h
    | some equal =>
      simp only [Native.compute, hanswer, Except.ok.injEq] at h
      rw [← h, equal?_eq_some hanswer]
  · intro f h
    cases hanswer : v.equal? depth w with
    | none =>
      simp only [Native.compute, hanswer, Except.error.injEq] at h
      refine ⟨h.symm, ?_⟩
      have hshort := mt isSome_equal? (by simp [hanswer] : ¬ (v.equal? depth w).isSome = true)
      omega
    | some equal => simp [Native.compute, hanswer] at h
  · obtain rfl := halike.eq hcoherent
    exact ⟨rfl, fun _ => rfl⟩

/-- A dotted chain and a longer one that starts in the same way, in both orders, and quoted, which
takes one more level of nesting. -/
theorem Value.equal?_structural_of_dotted_chain :
    let short := chain [integer 1] (integer 2)
    let long := chain [integer 1, integer 2] nil
    short.equal? 1 long = some false ∧ long.equal? 1 short = some false ∧
      Native.compute 2 .equal [quoted short, quoted long] = .ok (.boolean false) ∧
      (quoted short).equal? 1 (quoted short) = none := by
  intro short long
  have hdifferent : ¬ short.Alike long := by decide
  obtain ⟨⟨-, -, hanswer⟩, -, ⟨-, hcomm, -⟩, -⟩ := equal?_structural short short long 1
  obtain ⟨⟨-, -, hquoted⟩, -⟩ := equal?_structural nil (quoted short) (quoted long) 2
  have hfalse : short.equal? 1 long = some false :=
    (hanswer (.inl (by decide))).1.trans (by rw [decide_eq_false hdifferent])
  refine ⟨hfalse, hcomm ▸ hfalse, ?_, by decide⟩
  rw [Native.compute, (hquoted (.inl (by decide))).1]
  rfl

end MiniScheme
