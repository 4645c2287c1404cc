import MiniScheme.Proofs.Eval.Rules

/-!
# Evaluation that leaves captured tables alone

A closure brings the table that it captured into an environment only when it is called. All other
ways to make an environment bring in fresh tables, or what other closures have captured. So an
evaluation that calls none of some closures leaves what they have captured as it is.

## Main definitions

* `Snapshot`: a closure with the contents of the table that it captured.
* `Snapshot.discipline`: evaluation in environments without some captured tables.

## Main statements

* `Snapshot.matched_nil`: evaluation refers to no table that is not there.
* `Snapshot.matched_of_calls`: without calls of its closure, a captured table is left as it is.
-/

namespace MiniScheme

/-- A closure, given by its parts, with the contents of the table that it captured. -/
structure Snapshot where
  formals : Value
  body : Value
  place : TableId
  table : Table

namespace Snapshot

def closure (k : Snapshot) : Value := .closure k.formals k.body k.place

/-- A place below a bound at which no table is kept. -/
def Unkept (kept : List Snapshot) (bound : Nat) (id : TableId) : Prop :=
  id < bound ∧ ∀ k ∈ kept, id ≠ k.place

theorem Unkept.mono {kept : List Snapshot} {n n' : Nat} {id : TableId} (h : Unkept kept n id)
    (hle : n ≤ n') : Unkept kept n' id := ⟨Nat.lt_of_lt_of_le h.1 hle, h.2⟩

def Kept (kept : List Snapshot) (bound : Nat) (s : Store) : Prop :=
  bound ≤ s.tables.size ∧ ∀ k ∈ kept, k.place < s.tables.size ∧ s.table k.place = k.table

theorem Kept.allocate {kept : List Snapshot} {n : Nat} {s : Store} (h : Kept kept n s)
    (t : Table) : Kept kept (s.tables.size + 1) (s.allocate t).2 := by
  refine ⟨Nat.le_of_eq (Store.size_allocate s t).symm, fun k hk => ?_⟩
  obtain ⟨hlt, htable⟩ := h.2 k hk
  rw [Store.size_allocate, Store.table_allocate_of_lt hlt]
  exact ⟨Nat.lt_succ_of_lt hlt, htable⟩

theorem Kept.define {kept : List Snapshot} {n : Nat} {s : Store} (h : Kept kept n s)
    {id : TableId} (hid : Unkept kept n id) (x : String) (v : Value) :
    Kept kept n (s.define id x v) := by
  refine ⟨by rw [Store.size_define]; exact h.1, fun k hk => ?_⟩
  rw [Store.size_define, Store.table_define_of_ne (hid.2 k hk).symm]
  exact h.2 k hk

theorem Kept.ne_size {kept : List Snapshot} {n : Nat} {s : Store} (h : Kept kept n s) :
    ∀ k ∈ kept, s.tables.size ≠ k.place := fun k hk => Nat.ne_of_gt (h.2 k hk).1

/-- Evaluation in environments without the captured tables of some closures. A world is a bound on
the places in use. -/
def discipline (kept : List Snapshot) : Discipline where
  World := Nat
  le := Nat.le
  le_refl := Nat.le_refl
  le_trans := Nat.le_trans
  store := Kept kept
  closure n formals body captured := captured < n ∧
    ∀ k ∈ kept, captured = k.place → formals = k.formals ∧ body = k.body
  env n e := ∀ id ∈ e.tables, Unkept kept n id
  frame := Unkept kept
  closure_mono hle h := ⟨Nat.lt_of_lt_of_le h.1 hle, h.2⟩
  env_mono hle h id hid := (h id hid).mono hle
  frame_mono hle h := h.mono hle
  opens h := ⟨_, Nat.le_succ_of_le h.1, h.allocate .empty, Nat.lt_succ_self _, h.ne_size⟩
  fills {n s id} x v h hid := ⟨n, Nat.le_refl n, h.define hid x v⟩
  encloses he hid := List.forall_mem_cons.mpr ⟨hid, he⟩
  assigns {n s e id x} v _ h he hfind :=
    ⟨n, Nat.le_refl n, h.define (he id (Store.find?_eq_some hfind).1) x v⟩
  defines {n s e x} v _ h he := by
    have hroot : e.root ∈ e.tables := by simp [Env.tables]
    exact ⟨n, Nat.le_refl n, h.define (he e.root hroot) x v⟩
  captures {n s e formals body es} h he _ _ := by
    refine ⟨_, Nat.le_succ_of_le h.1, h.allocate (s.collapse e), Nat.lt_succ_self _, ?_⟩
    exact fun k hk heq => absurd heq (h.ne_size k hk)

/-- What another closure has captured may come in front of an environment. -/
theorem env_push {kept : List Snapshot} {n : Nat} {e : Env} {formals body : Value}
    {captured : TableId} (he : (discipline kept).env n e)
    (hclosure : (discipline kept).closure n formals body captured)
    (hne : ∀ k ∈ kept, captured ≠ k.place) : (discipline kept).env n (e.push captured) :=
  (discipline kept).encloses he ⟨hclosure.1, hne⟩

/-- Where no table is kept, nothing refers to a table that is not there. -/
theorem matched_nil {a b : Alarm} (hweaker : ∀ m, b.picks m = true → a.picks m = true)
    (traced : Bool) (depth : Nat) :
    (discipline []).Matched a b (.watched a traced depth) (.watched b traced depth) :=
  Discipline.matched hweaker (fun _ _ _ => trivial) (fun _ _ _ _ => trivial)
    (fun h => h.calls fun he hclosure => env_push he hclosure (by simp)) traced depth

end Snapshot

def Moment.calls (f : Value) : Moment → Bool
  | entry _ v _ _ => v = f
  | result _ _ => false

/-- Without calls of its closure, a captured table is left as it is. -/
theorem Snapshot.matched_of_calls (k : Snapshot) {a b : Alarm}
    (hweaker : ∀ m, b.picks m = true → a.picks m = true)
    (hcalls : ∀ m, m.calls k.closure = true → b.picks m = true) (traced : Bool) (depth : Nat) :
    (discipline [k]).Matched a b (.watched a traced depth) (.watched b traced depth) := by
  refine Discipline.matched hweaker (fun _ _ _ => trivial) (fun _ _ _ _ => trivial)
    (fun h => ?_) traced depth
  intro n env formals body operands captured s henv hclosure ho hs hpass
  obtain ⟨hcaptured, -, hbody⟩ := Discipline.allows_closure.mp hclosure
  refine h.call henv (env_push henv hcaptured ?_) hbody ho s hs
  rintro k' hk' rfl
  obtain rfl := List.mem_singleton.mp hk'
  obtain ⟨rfl, rfl⟩ := hcaptured.2 k' hk' rfl
  rw [hcalls _ (by simp [Moment.calls, Snapshot.closure])] at hpass
  cases hpass

end MiniScheme
