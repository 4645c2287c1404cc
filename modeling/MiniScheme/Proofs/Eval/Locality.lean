import MiniScheme.Proofs.Eval.Correspondence

/-!
# Evaluation is local

What an evaluation can get hold of are the tables of its environment, the tables that were captured
by closures in the expression and its operands, and those that were captured by closures in the
values bound there, and so on. All other tables stay as they are, and what is in them makes no
difference.

## Main definitions

* `Renaming.on`: nothing is renamed, and only some places are known.
* `Correspondence.diagonal`: two states with their tables at the same places.
* `Store.Reachable`: the tables that an evaluation can get hold of.

## Main statements

* `eval_ends_of_reachable`: two evaluations with the same tables within reach.
* `table_eval_of_not_reachable`: what is out of reach stays as it is.
-/

namespace MiniScheme

/-! ## Places that keep their names -/

namespace Renaming

def on (known : TableId → Prop) : Renaming where
  place i j := i = j ∧ known i
  installation := Eq
  biUnique_place := ⟨fun _ _ _ h h' => h.1.trans h'.1.symm, fun _ _ _ h h' => h.1.symm.trans h'.1⟩
  biUnique_installation := biUnique_eq

variable {known : TableId → Prop}

theorem fixes_on (known : TableId → Prop) : (on known).Fixes := ⟨fun h => h.1, fun h => h⟩

/-- A value is the same as itself if all places in it are known. -/
theorem same_on {v : Value}
    (h : ∀ {formals body captured}, .closure formals body captured ∈ v.closures → known captured) :
    v.Same (on known) v :=
  .refl (fun hmem => ⟨rfl, h hmem⟩) fun _ => rfl

theorem known_of_same_on {v w : Value} (h : v.Same (on known) w) {formals body : Value}
    {captured : TableId} (hmem : .closure formals body captured ∈ v.closures) : known captured := by
  obtain ⟨_, -, hknown⟩ := h.exists_place hmem
  exact hknown

theorem eq_of_answers {r : Renaming} (hr : r.Fixes) {a b : Except Fault Value}
    (h : r.Answers (Value.Same r) a b) : a = b := by
  cases h with
  | ok h => rw [h.eq_of_fixes hr]
  | error h => rw [h.eq_of_fixes hr]

end Renaming

/-- Two stores match if they hold the same tables at known places, and only known places are
captured by what is bound there. -/
theorem Store.matches_on {known : TableId → Prop} {s s' : Store}
    (heq : ∀ {i}, known i → s'.table i = s.table i)
    (hclosed : ∀ {i x v formals body captured}, known i → (s.table i).get? x = some v →
      .closure formals body captured ∈ v.closures → known captured) :
    s.Matches (.on known) s' := by
  rintro i _ ⟨rfl, hi⟩
  rw [heq hi]
  exact .refl (fun hget hmem => ⟨rfl, hclosed hi hget hmem⟩) fun _ => rfl

/-- Two states with as many tables, in which some places are known and so is every place to come. -/
def Correspondence.diagonal (left right : EvalState) (known : TableId → Prop)
    (hsize : right.store.tables.size = left.store.tables.size)
    (hnew : ∀ {i : Nat}, left.store.tables.size ≤ i → known i) : Correspondence where
  toRenaming := .on known
  left
  right
  fresh k := ⟨by rw [hsize], hnew (Nat.le_add_right _ _)⟩

/-! ## Reach -/

/-- The places of the tables that can be got hold of from an environment and some values. -/
inductive Store.Reachable (s : Store) (env : Env) (vs : List Value) : TableId → Prop where
  | scope {id : TableId} (h : id ∈ env.tables) : Reachable s env vs id
  | given {v formals body : Value} {captured : TableId} (hv : v ∈ vs)
      (hmem : .closure formals body captured ∈ v.closures) : Reachable s env vs captured
  | bound {id captured : TableId} {x : String} {v formals body : Value}
      (hid : Reachable s env vs id) (hget : (s.table id).get? x = some v)
      (hmem : .closure formals body captured ∈ v.closures) : Reachable s env vs captured

section

variable {env : Env} {e operands : Value} {s s' : EvalState}

def withinReach (env : Env) (e operands : Value) (s s' : EvalState)
    (hsize : s'.store.tables.size = s.store.tables.size) : Correspondence :=
  .diagonal s s' (fun id => s.store.Reachable env [e, operands] id ∨ s.store.tables.size ≤ id) hsize
    .inr

/-- Two evaluations with the same tables within reach end alike. -/
theorem eval_ends_of_reachable (hsize : s'.store.tables.size = s.store.tables.size)
    (hagree : ∀ {id}, s.store.Reachable env [e, operands] id → s'.store.table id = s.store.table id)
    (traced : Bool) (depth : Nat) :
    (withinReach env e operands s s' hsize).Ends
      (Value.Same (withinReach env e operands s s' hsize).toRenaming)
      (eval traced depth env e operands s) (eval traced depth env e operands s') := by
  have hplaces : ∀ {ids : List TableId}, (∀ id ∈ ids, id ∈ env.tables) →
      List.Forall₂ (withinReach env e operands s s' hsize).place ids ids :=
    fun hids => List.forall₂_same.mpr fun id hid => ⟨rfl, .inl (.scope (hids id hid))⟩
  have henv : env.Same (withinReach env e operands s s' hsize).toRenaming env := by
    refine ⟨hplaces fun id hid => ?_, rfl, .inl (.scope ?_)⟩
    · exact List.mem_append_left _ hid
    · exact List.mem_append_right _ List.mem_cons_self
  have htables : s.store.Matches (withinReach env e operands s s' hsize).toRenaming s'.store := by
    refine Store.matches_on (fun hid => ?_) fun hid hget hmem => ?_
    · rcases hid with hid | hid
      · exact hagree hid
      · rw [Store.table_of_size_le hid, Store.table_of_size_le (hsize ▸ hid)]
    · rcases hid with hid | hid
      · exact .inl (.bound hid hget hmem)
      · rw [Store.table_of_size_le hid] at hget
        cases hget
  have he : e.Same (withinReach env e operands s s' hsize).toRenaming e :=
    Renaming.same_on fun hmem => .inl (.given List.mem_cons_self hmem)
  have ho : operands.Same (withinReach env e operands s s' hsize).toRenaming operands :=
    Renaming.same_on fun hmem => .inl (.given (List.mem_cons_of_mem _ List.mem_cons_self) hmem)
  exact Correspondence.respects _ traced depth henv he ho s s' (Correspondence.holds_start htables)

/-- What is out of reach stays as it is, whatever comes of the evaluation. -/
theorem table_eval_of_not_reachable (traced : Bool) (depth : Nat) {id : TableId}
    (hlt : id < s.store.tables.size) (h : ¬ s.store.Reachable env [e, operands] id) :
    (finalState (eval traced depth env e operands s)).store.table id = s.store.table id := by
  have hends := @eval_ends_of_reachable env e operands s s rfl (fun _ => rfl) traced depth
  refine hends.final.1.left fun j hplace => ?_
  rcases hplace.2 with hid | hid
  · exact h hid
  · exact absurd hid (Nat.not_le_of_gt hlt)

/-- What is out of reach makes no difference: the answer is the same, and so are the tables within
reach and the new ones. -/
theorem eval_eq_of_reachable (hsize : s'.store.tables.size = s.store.tables.size)
    (hagree : ∀ {id}, s.store.Reachable env [e, operands] id → s'.store.table id = s.store.table id)
    (traced : Bool) (depth : Nat) :
    finalAnswer (eval traced depth env e operands s') =
        finalAnswer (eval traced depth env e operands s) ∧
      ∀ id, s.store.Reachable env [e, operands] id ∨ s.store.tables.size ≤ id →
        (finalState (eval traced depth env e operands s')).store.table id =
          (finalState (eval traced depth env e operands s)).store.table id := by
  obtain ⟨hholds, hanswers⟩ := (eval_ends_of_reachable hsize hagree traced depth).final
  refine ⟨(Renaming.eq_of_answers (Renaming.fixes_on _) hanswers).symm, fun id hid => ?_⟩
  exact ((hholds.tables id id ⟨rfl, hid⟩).eq_of_fixes (Renaming.fixes_on _)).symm

end

end MiniScheme
