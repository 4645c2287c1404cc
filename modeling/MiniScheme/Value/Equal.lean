import MiniScheme.Value

/-!
# Equality of values

Two values are equal when they are the same tree, where a closure counts as a leaf that is equal to
itself only: it is known by the table it captured. The comparison runs along chains without nesting
and descends into items and quoted values, so a bound on its depth is a bound on nesting only.

## Main definitions

* `Value.skeleton`: a value with its closures reduced to what they are known by.
* `Value.equal?`, `Value.differ?`: the comparison, and its negation.
-/

namespace MiniScheme.Value

/-- A value in which each closure keeps nothing but the place of its captured table. -/
def skeleton : Value → Value
  | pair left right => pair left.skeleton right.skeleton
  | quoted v => quoted v.skeleton
  | closure _ _ captured => closure nil nil captured
  | v => v

/-- Compares two values to a depth of nesting; nothing, if the depth does not suffice. -/
def equal? : Value → (depth : Nat) → Value → Option Bool
  | pair a b, depth, pair c d =>
    match depth with
    | 0 => none
    | depth + 1 =>
      match a.equal? depth c with
      | some true => b.equal? (depth + 1) d
      | answer => answer
  | quoted a, depth, quoted b =>
    match depth with
    | 0 => none
    | depth + 1 => a.equal? depth b
  | closure _ _ captured, _, closure _ _ other => some (captured = other)
  | v, _, w => some (v = w)

/-- Whether two values differ, as far as the depth of nesting suffices to say so. -/
def differ? (v : Value) (depth : Nat) (w : Value) : Option Bool := (v.equal? depth w).map not

/-- An answer of the comparison is whether the two values have the same skeleton. -/
theorem eq_of_equal? {v w : Value} {depth : Nat} {answer : Bool}
    (h : v.equal? depth w = some answer) : answer = decide (v.skeleton = w.skeleton) := by
  fun_induction equal? v depth w generalizing answer with
  | case1 => simp at h
  | case2 a b c d depth hac iha ihb =>
    simp [skeleton, show a.skeleton = c.skeleton by simpa using iha hac, ihb h]
  | case3 a b c d depth hac iha =>
    have hne : answer = false := by cases answer <;> simp_all
    subst hne
    simp [skeleton, show a.skeleton ≠ c.skeleton by simpa using iha h]
  | case4 => simp at h
  | case5 a b depth iha => simp [skeleton, iha h]
  | case6 => simpa [skeleton] using h.symm
  | case7 depth v w hpair hquoted hclosure =>
    obtain rfl : decide (v = w) = answer := by simpa using h
    cases v with
    | pair a b =>
      cases w with
      | pair c d => exact (hpair a b c d rfl rfl).elim
      | _ => simp [skeleton]
    | quoted a =>
      cases w with
      | quoted b => exact (hquoted a b rfl rfl).elim
      | _ => simp [skeleton]
    | closure f b c =>
      cases w with
      | closure f' b' c' => exact (hclosure f b c f' b' c' rfl rfl).elim
      | _ => simp [skeleton]
    | _ => cases w <;> simp [skeleton]

end MiniScheme.Value
