import MiniScheme.Value.Printer

/-!
# Tables of bindings

A table binds names to values and remembers the order in which the names were first bound. Binding
a name again keeps its position.

## Main definitions

* `Table.get?`, `Table.insert`, `Table.names`: looking up, binding, and the names in order.
* `Table.merge`: one table laid over another.
-/

namespace MiniScheme

/-- Bindings in the order in which their names were first bound, each name once. -/
structure Table where
  entries : List (String × Value)
  nodup : (entries.map Prod.fst).Nodup

namespace Table

def empty : Table := ⟨[], by simp⟩

instance : Inhabited Table := ⟨empty⟩

@[ext] theorem ext {t u : Table} (h : t.entries = u.entries) : t = u := by
  cases t; cases u; cases h; rfl

instance : DecidableEq Table := fun t u =>
  decidable_of_iff (t.entries = u.entries) ⟨ext, fun h => h ▸ rfl⟩

def names (t : Table) : List String := t.entries.map Prod.fst

def findValue? (x : String) : List (String × Value) → Option Value
  | [] => none
  | (y, v) :: rest => if y = x then some v else findValue? x rest

def get? (t : Table) (x : String) : Option Value := findValue? x t.entries

def contains (t : Table) (x : String) : Bool := (t.get? x).isSome

/-! ## Binding a name -/

/-- Replaces the value of a name in place, or adds the name at the end. -/
def insertEntry (x : String) (v : Value) : List (String × Value) → List (String × Value)
  | [] => [(x, v)]
  | (y, w) :: rest => if y = x then (y, v) :: rest else (y, w) :: insertEntry x v rest

theorem names_insertEntry (x : String) (v : Value) (es : List (String × Value)) :
    (insertEntry x v es).map Prod.fst =
      if x ∈ es.map Prod.fst then es.map Prod.fst else es.map Prod.fst ++ [x] := by
  induction es with
  | nil => simp [insertEntry]
  | cons e rest ih =>
    obtain ⟨y, w⟩ := e
    by_cases h : y = x
    · simp [insertEntry, h]
    · simp only [insertEntry, h, if_false, List.map_cons, ih, List.mem_cons,
        show x ≠ y from fun he => h he.symm, false_or]
      split <;> simp

def insert (t : Table) (x : String) (v : Value) : Table where
  entries := insertEntry x v t.entries
  nodup := by
    rw [names_insertEntry]
    split
    · exact t.nodup
    · next h =>
      have fresh : ∀ a v, (a, v) ∈ t.entries → a ≠ x := fun a v ha hax =>
        h (List.mem_map.mpr ⟨_, ha, hax⟩)
      simpa [List.nodup_append] using ⟨t.nodup, fresh⟩

/-- A name that is bound already keeps its position, and a new one comes last. -/
theorem names_insert (t : Table) (x : String) (v : Value) :
    (t.insert x v).names = if x ∈ t.names then t.names else t.names ++ [x] :=
  names_insertEntry x v t.entries

theorem findValue?_insertEntry (x y : String) (v : Value) (es : List (String × Value)) :
    findValue? y (insertEntry x v es) = if y = x then some v else findValue? y es := by
  induction es with
  | nil => simp [insertEntry, findValue?, eq_comm]
  | cons e rest ih => grind [insertEntry, findValue?]

theorem get?_insert (t : Table) (x y : String) (v : Value) :
    (t.insert x v).get? y = if y = x then some v else t.get? y :=
  findValue?_insertEntry x y v t.entries

/-! ## Laying tables over each other -/

def insertEntries (es us : List (String × Value)) : List (String × Value) :=
  us.foldl (fun es u => insertEntry u.1 u.2 es) es

/-- Lays bindings over others. As long as both have the same names in the same order, this is one
pass over them. -/
def mergeEntries : (es us : List (String × Value)) → List (String × Value)
  | es, [] => es
  | [], us => us
  | e :: es, u :: us =>
    if e.1 = u.1 then u :: mergeEntries es us else insertEntries (e :: es) (u :: us)

theorem insertEntries_cons_of_not_mem {e : String × Value} {es us : List (String × Value)}
    (h : e.1 ∉ us.map Prod.fst) : insertEntries (e :: es) us = e :: insertEntries es us := by
  induction us generalizing es with
  | nil => rfl
  | cons u us ih =>
    simp only [List.map_cons, List.mem_cons, not_or] at h
    simp only [insertEntries, List.foldl_cons, insertEntry, if_neg h.1] at ih ⊢
    exact ih h.2

theorem insertEntries_nil {us : List (String × Value)} (h : (us.map Prod.fst).Nodup) :
    insertEntries [] us = us := by
  cases us with
  | nil => rfl
  | cons u us =>
    simp only [List.map_cons, List.nodup_cons] at h
    change insertEntries [u] us = u :: us
    rw [insertEntries_cons_of_not_mem h.1, insertEntries_nil h.2]

/-- Laying bindings over others binds their names one after the other. -/
theorem mergeEntries_eq {es us : List (String × Value)} (h : (us.map Prod.fst).Nodup) :
    mergeEntries es us = insertEntries es us := by
  fun_induction mergeEntries es us with
  | case1 es => rfl
  | case2 us => exact (insertEntries_nil h).symm
  | case3 e es u us heq ih =>
    simp only [List.map_cons, List.nodup_cons] at h
    have hstep : insertEntries (e :: es) (u :: us) = insertEntries (u :: es) us := by
      simp [insertEntries, insertEntry, heq]
    rw [ih h.2, hstep, insertEntries_cons_of_not_mem h.1]
  | case4 => rfl

theorem nodup_insertEntries {es us : List (String × Value)} (h : (es.map Prod.fst).Nodup) :
    ((insertEntries es us).map Prod.fst).Nodup := by
  induction us generalizing es with
  | nil => exact h
  | cons u us ih => exact ih (Table.insert ⟨es, h⟩ u.1 u.2).nodup

def insertAll (t : Table) (us : List (String × Value)) : Table :=
  ⟨insertEntries t.entries us, nodup_insertEntries t.nodup⟩

def merge (t u : Table) : Table where
  entries := mergeEntries t.entries u.entries
  nodup := by
    rw [mergeEntries_eq u.nodup]
    exact nodup_insertEntries t.nodup

theorem merge_eq_insertAll (t u : Table) : t.merge u = t.insertAll u.entries :=
  ext (mergeEntries_eq u.nodup)

/-! ## Text -/

/-- What keeps the first value of a table that cannot be written from being written. -/
def obstacle? (depth : Nat) (t : Table) : Option Value.WriteError :=
  t.entries.findSome? fun e => e.2.obstacle? depth

/-- The text of a table: its bindings in order, between braces. -/
def write (t : Table) : String :=
  "\x7b" ++ ", ".intercalate (t.entries.map fun e => e.1 ++ ": " ++ String.ofList e.2.write) ++
    "\x7d"

end Table

end MiniScheme
