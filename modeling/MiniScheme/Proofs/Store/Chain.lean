import Mathlib.Data.List.Induction
import MiniScheme.Store

/-!
# Looking through chains of tables

What a name means in a chain of tables, and in the single table that a chain collapses to.

## Main definitions

* `Store.openScope`: a new scope with some bindings.

## Main statements

* `Table.names_insertAll_empty`, `Table.get?_insertAll_empty`: bindings that are made in turn.
* `Table.get?_merge`: the upper of two tables wins.
* `Store.get?_collapse`: a chain and its collapse give every name the same value.
* `Store.find?_eq_some`: a name is found in a table of the chain that binds it.
-/

namespace MiniScheme

theorem eraseDups_concat (xs : List String) (x : String) :
    (xs ++ [x]).eraseDups = if x ∈ xs then xs.eraseDups else xs.eraseDups ++ [x] := by
  rw [List.eraseDups_append]
  by_cases hx : x ∈ xs
  · simp [List.removeAll, hx]
  · simp [List.removeAll, hx, List.eraseDups_cons]

namespace Table

/-! ## Names and values of a table -/

theorem isSome_findValue? (x : String) (es : List (String × Value)) :
    (findValue? x es).isSome = true ↔ x ∈ es.map Prod.fst := by
  induction es with
  | nil => simp [findValue?]
  | cons e rest ih => grind [findValue?]

theorem mem_of_findValue {x : String} {v : Value} {es : List (String × Value)}
    (h : findValue? x es = some v) : (x, v) ∈ es := by
  induction es with
  | nil => cases h
  | cons e rest ih => grind [findValue?]

/-- A table binds exactly its names. -/
theorem contains_iff_mem_names {t : Table} {x : String} : t.contains x = true ↔ x ∈ t.names :=
  isSome_findValue? x t.entries

theorem mem_names_of_get? {t : Table} {x : String} {v : Value} (h : t.get? x = some v) :
    x ∈ t.names := by
  apply contains_iff_mem_names.mp
  simp [contains, h]

theorem mem_names_insert {t : Table} {x y : String} {v : Value}
    (h : y ∈ (t.insert x v).names) : y ∈ t.names ∨ y = x := by
  rw [names_insert] at h
  split at h
  · exact .inl h
  · simpa using h

@[simp] theorem get?_empty (x : String) : empty.get? x = none := rfl

/-! ## Laying tables over each other -/

theorem findValue?_insertEntries {es us : List (String × Value)} (x : String)
    (h : (us.map Prod.fst).Nodup) :
    findValue? x (insertEntries es us) = (findValue? x us).or (findValue? x es) := by
  induction us generalizing es with
  | nil => rfl
  | cons u us ih =>
    simp only [List.map_cons, List.nodup_cons] at h
    rw [insertEntries, List.foldl_cons, ← insertEntries, ih h.2, findValue?_insertEntry]
    by_cases hx : u.1 = x
    · subst hx
      have hnone : findValue? u.1 us = none := by
        rw [← Option.not_isSome_iff_eq_none, isSome_findValue?]
        exact h.1
      simp [findValue?, hnone]
    · simp [findValue?, hx, Ne.symm hx]

theorem entries_insertAll_empty {us : List (String × Value)} (h : (us.map Prod.fst).Nodup) :
    (empty.insertAll us).entries = us := insertEntries_nil h

theorem get?_insertAll_of_not_mem {t : Table} {x : String} {us : List (String × Value)}
    (h : x ∉ us.map Prod.fst) : (t.insertAll us).get? x = t.get? x := by
  induction us generalizing t with
  | nil => rfl
  | cons u us ih =>
    simp only [List.map_cons, List.mem_cons, not_or] at h
    change ((t.insert u.1 u.2).insertAll us).get? x = t.get? x
    rw [ih h.2, get?_insert, if_neg h.1]

theorem insertAll_concat (t : Table) (us : List (String × Value)) (u : String × Value) :
    t.insertAll (us ++ [u]) = (t.insertAll us).insert u.1 u.2 := by
  apply ext
  simp [insertAll, insertEntries, insert]

/-- Names that are bound in turn stand in the order of their first occurrence. -/
theorem names_insertAll_empty (us : List (String × Value)) :
    (empty.insertAll us).names = (us.map Prod.fst).eraseDups := by
  induction us using List.reverseRecOn with
  | nil => rfl
  | append_singleton us u ih =>
    rw [insertAll_concat, names_insert, ih, List.map_append, List.map_singleton, eraseDups_concat]
    simp only [List.mem_eraseDups]

/-- Of the values that a name is bound to in turn, the last one counts. -/
theorem get?_insertAll_empty (us : List (String × Value)) (x : String) :
    (empty.insertAll us).get? x = us.reverse.lookup x := by
  induction us using List.reverseRecOn with
  | nil => rfl
  | append_singleton us u ih =>
    rw [insertAll_concat, get?_insert, ih, List.reverse_append, List.reverse_singleton,
      List.singleton_append, List.lookup_cons]
    by_cases hx : x = u.1
    · simp [hx]
    · rw [if_neg hx, beq_eq_false_iff_ne.mpr hx]

/-- Of two tables that are laid over each other, the upper one wins. -/
theorem get?_merge (t u : Table) (x : String) :
    (t.merge u).get? x = (u.get? x).or (t.get? x) := by
  rw [merge_eq_insertAll]
  exact findValue?_insertEntries x u.nodup

end Table

namespace Store

/-! ## Chains -/

theorem get?_collapse (s : Store) (env : Env) (x : String) :
    (s.collapse env).get? x = s.get? env x := by
  obtain ⟨inner, root⟩ := env
  induction inner with
  | nil => simp [collapse, get?]
  | cons id inner ih =>
    change ((s.collapse ⟨inner, root⟩).merge (s.table id)).get? x =
      s.get? ((⟨inner, root⟩ : Env).push id) x
    rw [Table.get?_merge, get?_push, ih]

/-- A chain collapses to a table with all names of its root. -/
theorem mem_names_collapse {s : Store} {env : Env} {x : String}
    (h : x ∈ (s.table env.root).names) : x ∈ (s.collapse env).names := by
  rw [← Table.contains_iff_mem_names, Table.contains] at h ⊢
  rw [get?_collapse, get?]
  cases env.inner.findSome? fun id => (s.table id).get? x with
  | none => exact h
  | some v => rfl

/-- What a chain gives a name stands in one of its tables. -/
theorem exists_get?_of_get? {s : Store} {env : Env} {x : String} {v : Value}
    (h : s.get? env x = some v) : ∃ id, (s.table id).get? x = some v := by
  rw [get?_eq] at h
  obtain ⟨id, -, hid⟩ := List.exists_of_findSome?_eq_some h
  exact ⟨id, hid⟩

/-- A name is found in a table of the chain, which binds it. -/
theorem find?_eq_some {s : Store} {env : Env} {x : String} {id : TableId}
    (h : s.find? env x = some id) : id ∈ env.tables ∧ (s.table id).contains x = true := by
  rw [find?_eq] at h
  exact ⟨List.mem_of_find?_eq_some h, by simpa using List.find?_some h⟩

/-- A name that an inner table binds is found in an inner table. -/
theorem find?_of_mem_inner {s : Store} {env : Env} {x : String} {front : TableId}
    (hfront : front ∈ env.inner) (hx : x ∈ (s.table front).names) :
    ∃ id ∈ env.inner, s.find? env x = some id := by
  have hcontains : (s.table front).contains x = true := Table.contains_iff_mem_names.mpr hx
  unfold find?
  cases hfind : env.inner.find? fun id => (s.table id).contains x with
  | none => simpa [hcontains] using List.find?_eq_none.mp hfind front hfront
  | some id => exact ⟨id, List.mem_of_find?_eq_some hfind, rfl⟩

/-! ## Changing the store -/

@[simp] theorem size_define (s : Store) (id : TableId) (x : String) (v : Value) :
    (s.define id x v).tables.size = s.tables.size := by simp [define]

@[simp] theorem size_allocate (s : Store) (t : Table) :
    (s.allocate t).2.tables.size = s.tables.size + 1 := by simp [allocate]

theorem lt_size_allocate {s : Store} {id : TableId} (h : id < s.tables.size) (t : Table) :
    id < (s.allocate t).2.tables.size := by
  rw [size_allocate]
  exact Nat.lt_succ_of_lt h

theorem table_define_of_ne {s : Store} {id other : TableId} (h : other ≠ id) (x : String)
    (v : Value) : (s.define id x v).table other = s.table other := by
  simp [table, define, Array.getElem?_modify, Ne.symm h]

theorem table_of_size_le {s : Store} {id : TableId} (h : s.tables.size ≤ id) :
    s.table id = .empty := by
  simp [table, Array.getElem?_eq_none h]

theorem lt_size_of_mem_names {s : Store} {id : TableId} {x : String}
    (h : x ∈ (s.table id).names) : id < s.tables.size := by
  refine Nat.lt_of_not_le fun hle => ?_
  rw [table_of_size_le hle] at h
  cases h

theorem lt_size_of_get? {s : Store} {id : TableId} {x : String} {v : Value}
    (h : (s.table id).get? x = some v) : id < s.tables.size :=
  lt_size_of_mem_names (Table.mem_names_of_get? h)

theorem define_of_size_le {s : Store} {id : TableId} (h : s.tables.size ≤ id) (x : String)
    (v : Value) : s.define id x v = s := by
  obtain ⟨tables, installations⟩ := s
  have hmodify : tables.modify id (·.insert x v) = tables := by
    apply Array.ext_getElem?
    intro i
    rw [Array.getElem?_modify]
    split
    · next hi => subst hi; simp [Array.getElem?_eq_none h]
    · rfl
  simp [define, hmodify]

/-- A binding that a change leaves in the store was there or has just been made. -/
theorem get?_table_define {s : Store} {id other : TableId} {x y : String} {v w : Value}
    (h : ((s.define id x v).table other).get? y = some w) :
    w = v ∨ (s.table other).get? y = some w := by
  by_cases hid : id < s.tables.size
  · rw [table_define s id x v hid] at h
    split at h
    · next he =>
      subst he
      rw [Table.get?_insert] at h
      split at h
      · exact .inl (Option.some.inj h).symm
      · exact .inr h
    · exact .inr h
  · rw [define_of_size_le (Nat.le_of_not_lt hid)] at h
    exact .inr h

/-- Binding one name leaves the others alone. -/
theorem get?_table_define_of_ne {s : Store} {x y : String} (h : x ≠ y) (id other : TableId)
    (v : Value) : ((s.define id y v).table other).get? x = (s.table other).get? x := by
  by_cases hid : id < s.tables.size
  · rw [table_define s id y v hid]
    split
    · next he => rw [he, Table.get?_insert, if_neg h]
    · rfl
  · rw [define_of_size_le (Nat.le_of_not_lt hid)]

theorem table_allocate_of_lt {s : Store} {id : TableId} (h : id < s.tables.size) (t : Table) :
    (s.allocate t).2.table id = s.table id := by
  rw [table_allocate, if_neg (Nat.ne_of_lt h)]

/-! ## Filling a scope -/

def defineAll (s : Store) (id : TableId) (bindings : List (String × Value)) : Store :=
  bindings.foldl (fun s b => s.define id b.1 b.2) s

theorem table_defineAll_of_ne {s : Store} {id other : TableId} (h : other ≠ id)
    (us : List (String × Value)) : (s.defineAll id us).table other = s.table other := by
  induction us generalizing s with
  | nil => rfl
  | cons u us ih => exact ih.trans (table_define_of_ne h u.1 u.2)

def openScope (s : Store) (bindings : List (String × Value)) : Store :=
  (s.allocate .empty).2.defineAll s.tables.size bindings

theorem size_defineAll (s : Store) (id : TableId) (bindings : List (String × Value)) :
    (s.defineAll id bindings).tables.size = s.tables.size := by
  induction bindings generalizing s with
  | nil => rfl
  | cons b bindings ih => exact (ih _).trans (size_define ..)

theorem size_openScope (s : Store) (bindings : List (String × Value)) :
    (s.openScope bindings).tables.size = s.tables.size + 1 :=
  (size_defineAll ..).trans (size_allocate ..)

theorem table_defineAll {s : Store} {id : TableId} (h : id < s.tables.size)
    (bindings : List (String × Value)) (other : TableId) :
    (s.defineAll id bindings).table other =
      if other = id then (s.table id).insertAll bindings else s.table other := by
  induction bindings generalizing s with
  | nil =>
    split
    · next he => rw [he]; rfl
    · rfl
  | cons b bindings ih =>
    change ((s.define id b.1 b.2).defineAll id bindings).table other = _
    rw [ih (by rwa [size_define]), table_define s id b.1 b.2 h, table_define s id b.1 b.2 h,
      if_pos rfl]
    split <;> rfl

theorem table_openScope (s : Store) (bindings : List (String × Value)) (id : TableId) :
    (s.openScope bindings).table id =
      if id = s.tables.size then Table.empty.insertAll bindings else s.table id := by
  rw [openScope, table_defineAll (by simp), table_allocate, table_allocate, if_pos rfl]
  split <;> rfl

/-- A scope changes no table that is there already. -/
theorem table_openScope_of_lt {s : Store} {id : TableId} (h : id < s.tables.size)
    (bindings : List (String × Value)) : (s.openScope bindings).table id = s.table id := by
  rw [table_openScope, if_neg (Nat.ne_of_lt h)]

end Store

end MiniScheme
