import MiniScheme.Table

/-!
# The store and environments

All tables of bindings live in one store and are referred to by their places, so that several
scopes can share a table. An environment is a chain of places that ends in the root of a session.

## Main definitions

* `Store`: the tables.
* `Env`: a chain of scopes.
* `Store.get?`, `Store.find?`, `Store.set?`: access through an environment.
* `Store.collapse`: the bindings that are visible in an environment, as one table.
-/

namespace MiniScheme

/-- The tables of all scopes, and how often built-ins have been installed. -/
structure Store where
  tables : Array Table
  installations : Nat

namespace Store

def empty : Store := ⟨#[], 0⟩

instance : Inhabited Store := ⟨empty⟩

/-- The table at a place; the empty table where there is none. -/
def table (s : Store) (id : TableId) : Table := s.tables[id]?.getD .empty

def allocate (s : Store) (t : Table) : TableId × Store :=
  (s.tables.size, { s with tables := s.tables.push t })

def define (s : Store) (id : TableId) (x : String) (v : Value) : Store :=
  { s with tables := s.tables.modify id (·.insert x v) }

theorem table_define (s : Store) (id : TableId) (x : String) (v : Value) (h : id < s.tables.size)
    (other : TableId) :
    (s.define id x v).table other =
      if other = id then (s.table id).insert x v else s.table other := by
  by_cases he : other = id
  · subst he; simp [table, define, Array.getElem_modify, h]
  · simp [table, define, Array.getElem?_modify, he, Ne.symm he]

theorem table_allocate (s : Store) (t : Table) (other : TableId) :
    (s.allocate t).2.table other = if other = s.tables.size then t else s.table other := by
  simp only [table, allocate, Array.getElem?_push]
  split <;> rfl

end Store

/-- A chain of scopes: the places of the inner tables, innermost first, and of the root table. -/
structure Env where
  inner : List TableId
  root : TableId
  deriving DecidableEq, Repr

namespace Env

def tables (env : Env) : List TableId := env.inner ++ [env.root]

def ofTables (id : TableId) : List TableId → Env
  | [] => ⟨[], id⟩
  | next :: rest => let outer := ofTables next rest; ⟨id :: outer.inner, outer.root⟩

def push (env : Env) (id : TableId) : Env := { env with inner := id :: env.inner }

@[simp] theorem tables_ofTables (id : TableId) (rest : List TableId) :
    (ofTables id rest).tables = id :: rest := by
  induction rest generalizing id with
  | nil => rfl
  | cons next rest ih => simpa [ofTables, tables] using ih next

@[simp] theorem tables_push (env : Env) (id : TableId) :
    (env.push id).tables = id :: env.tables := rfl

@[simp] theorem root_push (env : Env) (id : TableId) : (env.push id).root = env.root := rfl

end Env

namespace Store

def find? (s : Store) (env : Env) (x : String) : Option TableId :=
  match env.inner.find? fun id => (s.table id).contains x with
  | some id => some id
  | none => if (s.table env.root).contains x then some env.root else none

def get? (s : Store) (env : Env) (x : String) : Option Value :=
  match env.inner.findSome? fun id => (s.table id).get? x with
  | some v => some v
  | none => (s.table env.root).get? x

theorem find?_eq (s : Store) (env : Env) (x : String) :
    s.find? env x = env.tables.find? fun id => (s.table id).contains x := by
  simp only [find?, Env.tables, List.find?_append, List.find?_singleton]
  cases env.inner.find? fun id => (s.table id).contains x <;> simp

theorem get?_eq (s : Store) (env : Env) (x : String) :
    s.get? env x = env.tables.findSome? fun id => (s.table id).get? x := by
  simp only [get?, Env.tables, List.findSome?_append, List.findSome?_singleton]
  cases env.inner.findSome? fun id => (s.table id).get? x <;> simp

theorem get?_push (s : Store) (env : Env) (id : TableId) (x : String) :
    s.get? (env.push id) x = ((s.table id).get? x).or (s.get? env x) := by
  simp only [get?_eq, Env.tables_push, List.findSome?_cons]
  cases (s.table id).get? x <;> rfl

def set? (s : Store) (env : Env) (x : String) (v : Value) : Option Store :=
  (s.find? env x).map fun id => s.define id x v

def defineGlobal (s : Store) (env : Env) (x : String) (v : Value) : Store :=
  s.define env.root x v

/-- All bindings of a chain as one table: the inner tables are laid over the root table from the
outermost inwards, so that closer bindings win. -/
def collapse (s : Store) (env : Env) : Table :=
  env.inner.foldr (fun id t => t.merge (s.table id)) (s.table env.root)

end Store

end MiniScheme
