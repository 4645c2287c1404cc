import MiniScheme.Proofs.Eval.Rules

/-!
# Layouts of a store

A layout records what is known about the tables of a store: the names of each, and which of them
were captured, by a closure with which parameters and body. As evaluation goes on, a layout grows:
tables are added, names are added at the end, and a captured table keeps its names.

## Main definitions

* `Layout`: the records.
* `Layout.Le`: how a layout grows.
* `Layout.discipline`: evaluation in a session with a given root.

## Main statements

* `Layout.matched`: evaluation keeps to the layout of its store.
-/

namespace MiniScheme

/-- How many tables there are, their names, and the parameters and the body of the closure that
captured a table. -/
structure Layout where
  size : Nat
  names : TableId → List String
  snapshot : TableId → Option (Value × Value)
  snapshot_lt : ∀ {id}, (snapshot id).isSome = true → id < size

namespace Layout

def empty : Layout := ⟨0, fun _ => [], fun _ => none, fun h => nomatch h⟩

structure Le (l l' : Layout) : Prop where
  size : l.size ≤ l'.size
  names : ∀ {id}, id < l.size → l.names id <+: l'.names id
  snapshot : ∀ {id}, id < l.size → l'.snapshot id = l.snapshot id
  fixed : ∀ {id}, (l.snapshot id).isSome = true → l'.names id = l.names id

theorem Le.refl (l : Layout) : l.Le l :=
  ⟨Nat.le_refl _, fun _ => List.prefix_refl _, fun _ => rfl, fun _ => rfl⟩

theorem Le.trans {l₁ l₂ l₃ : Layout} (h : l₁.Le l₂) (g : l₂.Le l₃) : l₁.Le l₃ where
  size := Nat.le_trans h.size g.size
  names hid := (h.names hid).trans (g.names (Nat.lt_of_lt_of_le hid h.size))
  snapshot hid := by rw [g.snapshot (Nat.lt_of_lt_of_le hid h.size), h.snapshot hid]
  fixed hid := by
    have hid' := hid
    rw [← h.snapshot (l₁.snapshot_lt hid)] at hid'
    rw [g.fixed hid', h.fixed hid]

theorem lt_of_snapshot {l : Layout} {id : TableId} {closure : Value × Value}
    (h : l.snapshot id = some closure) : id < l.size := l.snapshot_lt (by simp [h])

theorem Le.snapshot_eq_some {l l' : Layout} (h : l.Le l') {id : TableId} {closure : Value × Value}
    (hid : l.snapshot id = some closure) : l'.snapshot id = some closure := by
  rw [h.snapshot (lt_of_snapshot hid), hid]

def Free (l : Layout) (id : TableId) : Prop := id < l.size ∧ l.snapshot id = none

theorem Le.free {l l' : Layout} (h : l.Le l') {id : TableId} (hid : l.Free id) : l'.Free id :=
  ⟨Nat.lt_of_lt_of_le hid.1 h.size, by rw [h.snapshot hid.1, hid.2]⟩

structure Describes (l : Layout) (s : Store) : Prop where
  size : l.size = s.tables.size
  names : ∀ id, l.names id = (s.table id).names

/-- The layout after a table has been added, and captured if a closure is given. -/
def add (l : Layout) (t : Table) (closure : Option (Value × Value)) : Layout where
  size := l.size + 1
  names id := if id = l.size then t.names else l.names id
  snapshot id := if id = l.size then closure else l.snapshot id
  snapshot_lt {id} h := by
    by_cases hid : id = l.size
    · exact Nat.lt_succ_of_le (Nat.le_of_eq hid)
    · rw [if_neg hid] at h
      exact Nat.lt_succ_of_lt (l.snapshot_lt h)

section Add

variable (l : Layout) (t : Table) (closure : Option (Value × Value))

@[simp] theorem size_add : (l.add t closure).size = l.size + 1 := rfl

@[simp] theorem names_add (id : TableId) :
    (l.add t closure).names id = if id = l.size then t.names else l.names id := rfl

theorem le_add : l.Le (l.add t closure) where
  size := Nat.le_succ _
  names hid := by simp [Nat.ne_of_lt hid]
  snapshot hid := if_neg (Nat.ne_of_lt hid)
  fixed hid := if_neg (Nat.ne_of_lt (l.snapshot_lt hid))

theorem Describes.add {l : Layout} {s : Store} (h : l.Describes s) (t : Table)
    (closure : Option (Value × Value)) : (l.add t closure).Describes (s.allocate t).2 where
  size := by rw [Store.size_allocate, size_add, h.size]
  names id := by
    rw [Store.table_allocate, names_add, h.size]
    split
    · rfl
    · exact h.names id

end Add

def bind (l : Layout) (id : TableId) (x : String) : Layout :=
  { l with names := fun other =>
      if other = id ∧ x ∉ l.names id then l.names id ++ [x] else l.names other }

theorem le_bind {l : Layout} {id : TableId} {x : String}
    (h : l.snapshot id = none ∨ x ∈ l.names id) : l.Le (l.bind id x) where
  size := Nat.le_refl _
  names {other} _ := by
    unfold bind
    dsimp only
    split
    · next hx => rw [hx.1]; exact List.prefix_append _ _
    · exact List.prefix_refl _
  snapshot _ := rfl
  fixed {other} hother := by
    refine if_neg fun hx => ?_
    rcases h with h | h
    · rw [hx.1, h] at hother
      cases hother
    · exact hx.2 h

theorem Describes.bind {l : Layout} {s : Store} (h : l.Describes s) {id : TableId}
    (hid : id < l.size) (x : String) (v : Value) : (l.bind id x).Describes (s.define id x v) where
  size := by rw [Store.size_define, Layout.bind, h.size]
  names other := by
    rw [Store.table_define s id x v (h.size ▸ hid), Layout.bind]
    simp only [h.names]
    by_cases hother : other = id
    · subst hother
      simp only [if_true, true_and, Table.names_insert, ite_not]
    · simp only [hother, if_false, false_and]

/-! ## Evaluation -/

/-- Evaluation in environments that end in the given root: a name is bound where no closure has
captured the table, or where the name is bound already. -/
def discipline (root : TableId) : Discipline where
  World := Layout
  le := Le
  le_refl := .refl
  le_trans := .trans
  store := Describes
  closure l formals body captured := l.snapshot captured = some (formals, body)
  env l e := e.root = root ∧ l.Free root
  frame := Free
  closure_mono h hc := h.snapshot_eq_some hc
  env_mono h he := ⟨he.1, h.free he.2⟩
  frame_mono h hid := h.free hid
  opens {l s} h := by
    refine ⟨l.add .empty none, l.le_add .empty none, h.add .empty none, ?_⟩
    rw [← h.size]
    exact ⟨Nat.lt_succ_self _, if_pos rfl⟩
  fills {l s id} x v h hid := ⟨l.bind id x, le_bind (.inl hid.2), h.bind hid.1 x v⟩
  encloses he _ := he
  assigns {l s e id x} v _ h he hfind := by
    have hx : x ∈ l.names id := by
      rw [h.names, ← Table.contains_iff_mem_names]
      exact (Store.find?_eq_some hfind).2
    have hid : id < l.size := h.size ▸ Store.lt_size_of_mem_names (h.names id ▸ hx)
    exact ⟨l.bind id x, le_bind (.inr hx), h.bind hid x v⟩
  defines {l s e x} v _ h he := by
    rw [he.1]
    exact ⟨l.bind root x, le_bind (.inl he.2.2), h.bind he.2.1 x v⟩
  captures {l s e formals body es} h he _ _ := by
    refine ⟨l.add (s.collapse e) (some (formals, body)), l.le_add _ _, h.add _ _, ?_⟩
    rw [← h.size]
    exact if_pos rfl

/-- Evaluation keeps to the layout of its store. -/
theorem matched (root : TableId) {a b : Alarm}
    (hweaker : ∀ m, b.picks m = true → a.picks m = true) (traced : Bool) (depth : Nat) :
    (discipline root).Matched a b (.watched a traced depth) (.watched b traced depth) :=
  Discipline.matched hweaker (fun _ _ _ => trivial) (fun _ _ _ _ => trivial)
    (fun h => h.calls fun henv _ => henv) traced depth

end Layout

end MiniScheme
