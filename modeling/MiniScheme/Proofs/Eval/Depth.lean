import MiniScheme.Proofs.Eval.Congruence

/-!
# Evaluation with more depth

Depth is spent on nested evaluation, on writing values into faults and events, and on comparing
values. Wherever there is too little of it, the same fault ends the whole evaluation, and no rule
catches it. So more depth changes nothing but evaluations that end in this fault.

## Main definitions

* `Congruence.deeper`: a computation that ends in this fault, or as another one does.

## Main statements

* `Value.obstacle?_of_le`, `Value.equal?_of_le`: writing and comparing values.
* `Level.linked_of_le`: evaluation.
-/

namespace MiniScheme

/-! ## Values -/

namespace Value

/-- What is not nested too deeply for one depth is written in the same way with more. -/
theorem obstacle?_of_le {v : Value} {depth depth' : Nat} (hle : depth ≤ depth')
    (h : v.obstacle? depth ≠ some .tooDeep) : v.obstacle? depth' = v.obstacle? depth := by
  induction v generalizing depth depth' with
  | pair left right ihl ihr | closure left right _ ihl ihr =>
    cases depth with
    | zero => exact absurd rfl h
    | succ depth =>
      obtain ⟨depth', rfl⟩ := Nat.exists_eq_add_of_le' (Nat.one_le_of_lt hle)
      simp only [obstacle?] at h ⊢
      cases hleft : left.obstacle? depth with
      | some e =>
        rw [hleft] at h
        rw [ihl (Nat.le_of_succ_le_succ hle) (by rw [hleft]; exact h), hleft]
      | none =>
        rw [hleft] at h
        rw [ihl (Nat.le_of_succ_le_succ hle) (by simp [hleft]), hleft]
        exact ihr hle h
  | quoted v ih =>
    cases depth with
    | zero => exact absurd rfl h
    | succ depth =>
      obtain ⟨depth', rfl⟩ := Nat.exists_eq_add_of_le' (Nat.one_le_of_lt hle)
      exact ih (Nat.le_of_succ_le_succ hle) h
  | _ => rfl

/-- Values that can be compared to a depth compare in the same way to a larger one. -/
theorem equal?_of_le {v w : Value} {depth depth' : Nat} (hle : depth ≤ depth')
    (h : v.equal? depth w ≠ none) : v.equal? depth' w = v.equal? depth w := by
  -- the left halves are compared one level further down, the right halves on the same level
  fun_induction equal? v depth w generalizing depth' with
  | case1 | case4 => exact absurd rfl h
  | case2 a b c d depth hac iha ihb =>
    obtain _ | depth' := depth'
    · exact absurd hle (Nat.not_succ_le_zero _)
    · rw [equal?, iha (Nat.le_of_succ_le_succ hle) (by simp [hac]), hac]
      exact ihb hle h
  | case3 a b c d depth hac iha =>
    obtain _ | depth' := depth'
    · exact absurd hle (Nat.not_succ_le_zero _)
    · rw [equal?, iha (Nat.le_of_succ_le_succ hle) h]
      cases hanswer : a.equal? depth c with
      | none => exact absurd hanswer h
      | some answer =>
        cases answer with
        | true => exact absurd hanswer hac
        | false => rfl
  | case5 a b depth iha =>
    obtain _ | depth' := depth'
    · exact absurd hle (Nat.not_succ_le_zero _)
    · exact iha (Nat.le_of_succ_le_succ hle) h
  | case6 => rfl
  | case7 depth v w hpair hquoted hclosure =>
    unfold equal?
    split
    · exact (hpair _ _ _ _ rfl rfl).elim
    · exact (hquoted _ _ rfl rfl).elim
    · exact (hclosure _ _ _ _ _ _ rfl rfl).elim
    · rfl

end Value

/-! ## Faults, events and natives -/

theorem Fault.worded_of_le {f : Fault} {depth depth' : Nat} (hle : depth ≤ depth')
    (h : f.worded depth ≠ .tooDeep) : f.worded depth' = f.worded depth := by
  unfold worded at h ⊢
  cases hculprit : f.culprit? with
  | none => rfl
  | some v =>
    simp only [hculprit, Option.bind_some] at h ⊢
    rw [Value.obstacle?_of_le hle]
    rintro hdeep
    rw [hdeep] at h
    exact h rfl

theorem Event.obstacle?_of_le {e : Event} {depth depth' : Nat} (hle : depth ≤ depth')
    (h : e.obstacle? depth ≠ some .tooDeep) : e.obstacle? depth' = e.obstacle? depth := by
  unfold obstacle? at h ⊢
  generalize e.values = vs at h ⊢
  induction vs with
  | nil => rfl
  | cons v vs ih =>
    simp only [List.findSome?_cons] at h ⊢
    cases hv : v.obstacle? depth with
    | some obstacle =>
      rw [hv] at h
      rw [Value.obstacle?_of_le hle (by rw [hv]; exact h), hv]
    | none =>
      rw [hv] at h
      rw [Value.obstacle?_of_le hle (by simp [hv]), hv]
      exact ih h

/-- Only the comparison of values looks at the depth that is left. -/
theorem Native.compute_of_le {p : Native} {args : List Value} {depth depth' : Nat}
    (hle : depth ≤ depth') (h : p.compute depth args ≠ .error .tooDeep) :
    p.compute depth' args = p.compute depth args := by
  unfold compute
  split
  case h_8 a b =>
    have hanswer : a.equal? depth b ≠ none := by
      intro hnone
      exact h (by simp only [compute, hnone])
    rw [Value.equal?_of_le hle hanswer]
  all_goals rfl

/-! ## Evaluation -/

/-- A computation ends because there is too little depth, or as another one does. -/
def Congruence.deeper : Congruence where
  Rel x y := ∀ s, (∃ s', x s = .error .tooDeep s') ∨ y s = x s
  refl _ _ := .inr rfl
  bind {α β x y k l} hx hk s := by
    simp only [Bind.bind, EStateM.bind]
    rcases hx s with ⟨s', hs'⟩ | hs
    · exact .inl ⟨s', by rw [hs']⟩
    · rw [hs]
      cases x s with
      | error f s' => exact .inr rfl
      | ok v s' => exact hk v s'

namespace Congruence

theorem deeper_throw {α : Type} {f g : Fault} (h : f ≠ .tooDeep → g = f) :
    deeper.Rel (throw f : EvalM α) (throw g) := by
  intro s
  by_cases hf : f = .tooDeep
  · exact .inl ⟨s, by rw [hf]; rfl⟩
  · exact .inr (by rw [h hf])

variable {level₁ level₂ : Level}

theorem deeper_raise {α : Type} (hle : level₁.depth ≤ level₂.depth) (f : Fault) :
    deeper.Rel (level₁.raise f : EvalM α) (level₂.raise f) :=
  deeper_throw fun h => Fault.worded_of_le hle h

/-- Two levels are linked as soon as the second one has more depth and evaluates accordingly. -/
theorem deeper_linked (htraced : level₁.traced = level₂.traced)
    (hle : level₁.depth ≤ level₂.depth)
    (hrun : ∀ env v operands, deeper.Rel (level₁.run env v operands)
      (level₂.run env v operands)) : deeper.Linked level₁ level₂ where
  run := hrun
  raise _ := deeper_raise hle _
  report e := by
    unfold Level.report
    rw [htraced]
    split
    · by_cases hdeep : e.obstacle? level₁.depth = some .tooDeep
      · rw [hdeep]
        exact fun s => .inl ⟨s, rfl⟩
      · rw [Event.obstacle?_of_le hle hdeep]
        exact fun s => .inr rfl
    · exact deeper.pure ()
  compute p args := by
    by_cases hdeep : p.compute level₁.depth args = .error .tooDeep
    · rw [hdeep]
      exact fun s => .inl ⟨s, rfl⟩
    · rw [Native.compute_of_le hle hdeep]
      cases p.compute level₁.depth args with
      | ok v => exact deeper.pure v
      | error f => exact deeper_raise hle f

end Congruence

/-- Evaluation with more depth ends in the same way, unless it ended for want of depth. -/
theorem Level.linked_of_le (traced : Bool) {depth depth' : Nat} (hle : depth ≤ depth') :
    Congruence.deeper.Linked (.ofDepth traced depth) (.ofDepth traced depth') := by
  refine Congruence.deeper_linked rfl hle ?_
  induction depth generalizing depth' with
  | zero => exact fun env v operands s => .inl ⟨s, rfl⟩
  | succ depth ih =>
    obtain _ | depth' := depth'
    · exact absurd hle (Nat.not_succ_le_zero depth)
    · have hle' := Nat.le_of_succ_le_succ hle
      have hlinked : Congruence.deeper.Linked (.ofDepth traced depth) (.ofDepth traced depth') :=
        Congruence.deeper_linked rfl hle' (ih hle')
      intro env v operands
      change Congruence.deeper.Rel (step (.ofDepth traced depth) env v operands)
        (step (.ofDepth traced depth') env v operands)
      cases v with
      | symbol x => exact fun s => .inr rfl
      | closure formals body captured =>
        refine hlinked.call env (fun _ _ parameter _ frame u => ?_) body captured operands
        cases parameter with
        | symbol x => exact fun s => .inr rfl
        | _ => exact Congruence.deeper_raise hle' _
      | _ => exact hlinked.step env operands (by simp) (by simp)

end MiniScheme
