import Mathlib.Data.List.Induction
import Mathlib.Logic.Relation
import MiniScheme.Frames
import MiniScheme.Proofs.Store.Chain

/-!
# Frames that share a table

Frames are made, and their bindings changed, in any order. Only giving a frame other frames around
it makes a frame that shares its table, so the frames fall into classes, and whatever changes
bindings changes them in one class.

## Main definitions

* `Frames.Operation`, `Frames.perform`, `Frames.after`: what is done with frames, in turn.
* `Frames.Connected`: frames are joined by giving one of them other frames around it.
* `Frames.ancestor`: the frames around a frame, by following parents.
* `Frames.Changes`: some names are bound in one class and nowhere else.

## Main statements

* `Frames.Sound.perform`: what every operation keeps.
* `Frames.set_cases`, `Frames.update_cases`: what an assignment and a list of bindings come to.
* `Frames.sharing_discipline`: who shares, who changes, and what stays, after every history.
-/

namespace MiniScheme.Frames

inductive Operation where
  | new (outer : Option Nat)
  | copy (n : Nat)
  | collapse (n : Nat)
  | reparent (n : Nat) (outer : Option Nat)
  | define (n : Nat) (name v : Value)
  | defineGlobal (n : Nat) (name v : Value)
  | set (n : Nat) (name v : Value)
  | update (n : Nat) (pairs : List (Value × Value))

namespace Operation

def given : Operation → List Nat
  | new outer => outer.toList
  | copy n | collapse n | define n _ _ | defineGlobal n _ _ | set n _ _ | update n _ => [n]
  | reparent n outer => n :: outer.toList

def makes : Operation → Bool
  | new _ | copy _ | collapse _ | reparent _ _ => true
  | _ => false

end Operation

/-- What becomes of frames that are to be changed: they stay as they are if that fails. -/
def attempt (fs : Frames) : Except Fault Frames → Option Fault × Frames
  | .ok fs' => (none, fs')
  | .error f => (some f, fs)

def perform (fs : Frames) : Operation → Option Fault × Frames
  | .new outer => (none, (fs.new outer).2)
  | .copy n => (none, (fs.copy n).2)
  | .collapse n => (none, (fs.collapse n).2)
  | .reparent n outer => (none, (fs.reparent n outer).2)
  | .define n name v => fs.attempt (fs.define n name v)
  | .defineGlobal n name v => fs.attempt (fs.defineGlobal n name v)
  | .set n name v => fs.attempt (fs.set n name v)
  | .update n pairs => fs.update n pairs

def after (fs : Frames) (ops : List Operation) : Frames :=
  ops.foldl (fun fs op => (fs.perform op).2) fs

/-- Each operation is given frames that have been made by then. -/
def Valid (fs : Frames) : List Operation → Prop
  | [] => True
  | op :: ops => (∀ n ∈ op.given, n < fs.frames.size) ∧ Valid (fs.perform op).2 ops

instance decidableValid : (fs : Frames) → (ops : List Operation) → Decidable (fs.Valid ops)
  | _, [] => inferInstanceAs (Decidable True)
  | fs, op :: ops =>
    have := decidableValid (fs.perform op).2 ops
    inferInstanceAs (Decidable ((∀ n ∈ op.given, n < fs.frames.size) ∧ _))

/-- A frame that has been given other frames around it, and the frame that came of this. -/
def Reparents (ops : List Operation) (m n : Nat) : Prop :=
  ∃ before outer later, ops = before ++ .reparent m outer :: later ∧
    (empty.after before).frames.size = n

/-- Frames that are joined in this way, directly or through others. -/
def Connected (ops : List Operation) : Nat → Nat → Prop := Relation.EqvGen (Reparents ops)

variable {fs : Frames} {ops : List Operation}

theorem after_append (fs : Frames) (before later : List Operation) :
    fs.after (before ++ later) = (fs.after before).after later := List.foldl_append

theorem after_concat (fs : Frames) (ops : List Operation) (op : Operation) :
    fs.after (ops ++ [op]) = ((fs.after ops).perform op).2 := after_append ..

theorem valid_append {before later : List Operation} :
    fs.Valid (before ++ later) ↔ fs.Valid before ∧ (fs.after before).Valid later := by
  induction before generalizing fs with
  | nil => simp [Valid, after]
  | cons op before ih =>
    simp only [List.cons_append, Valid, ih, and_assoc]
    exact Iff.rfl

theorem valid_concat {op : Operation} :
    fs.Valid (ops ++ [op]) ↔
      fs.Valid ops ∧ ∀ n ∈ op.given, n < (fs.after ops).frames.size := by
  rw [valid_append]
  simp [Valid]

theorem Reparents.append {m n : Nat} (h : Reparents ops m n) (later : List Operation) :
    Reparents (ops ++ later) m n := by
  obtain ⟨before, outer, between, rfl, hn⟩ := h
  exact ⟨before, outer, between ++ later, by simp, hn⟩

theorem Connected.append {m n : Nat} (h : Connected ops m n) (later : List Operation) :
    Connected (ops ++ later) m n := by
  have hle : Reparents ops ≤ Reparents (ops ++ later) := fun _ _ h => h.append later
  exact Relation.EqvGen.mono hle _ _ h

theorem reparents_concat {op : Operation} {m n : Nat} (h : Reparents (ops ++ [op]) m n) :
    Reparents ops m n ∨ (∃ outer, op = .reparent m outer) ∧ n = (empty.after ops).frames.size := by
  obtain ⟨before, outer, later, hops, rfl⟩ := h
  rcases List.eq_nil_or_concat later with rfl | ⟨between, last, rfl⟩
  · obtain ⟨rfl, hop⟩ := List.append_inj' hops rfl
    exact .inr ⟨⟨outer, List.singleton_inj.mp hop⟩, rfl⟩
  · rw [List.concat_eq_append, ← List.cons_append, ← List.append_assoc] at hops
    obtain ⟨rfl, -⟩ := List.append_inj' hops rfl
    exact .inl ⟨before, outer, between, rfl, rfl⟩

/-! ## Parents -/

def parent (fs : Frames) (n : Nat) : Option Nat := (fs.frame n).outer.head?

/-- The frame that is reached from a frame by going so many times to the parent. -/
def ancestor (fs : Frames) (n : Nat) : Nat → Option Nat
  | 0 => some n
  | k + 1 => (fs.ancestor n k).bind fs.parent

/-- A frame outside of which there is nothing, at the end of the parents of another. -/
def EndOf (fs : Frames) (n r : Nat) : Prop :=
  ∃ k, fs.ancestor n k = some r ∧ fs.parent r = none

/-- The first of the parents of a frame, and the frame itself, that binds a name. -/
def Nearest (fs : Frames) (n : Nat) (x : String) (m : Nat) : Prop :=
  ∃ k, fs.ancestor n k = some m ∧ (fs.table m).contains x = true ∧
    ∀ j < k, ∀ m', fs.ancestor n j = some m' → (fs.table m').contains x = false

/-! ## Writing into a table -/

def write (fs : Frames) (n : Nat) (us : List (String × Value)) : Frames :=
  { fs with store := fs.store.defineAll (fs.frame n).table us }

@[simp] theorem frame_write (fs : Frames) (n m : Nat) (us : List (String × Value)) :
    (fs.write n us).frame m = fs.frame m := rfl

@[simp] theorem lineage_write (fs : Frames) (n m : Nat) (us : List (String × Value)) :
    (fs.write n us).lineage m = fs.lineage m := rfl

@[simp] theorem size_store_write (fs : Frames) (n : Nat) (us : List (String × Value)) :
    (fs.write n us).store.tables.size = fs.store.tables.size :=
  Store.size_defineAll ..

theorem table_write {n : Nat} (h : (fs.frame n).table < fs.store.tables.size)
    (us : List (String × Value)) (m : Nat) :
    (fs.write n us).table m =
      if (fs.frame m).table = (fs.frame n).table then (fs.table m).insertAll us
      else fs.table m := by
  change (fs.store.defineAll _ us).table (fs.frame m).table = _
  rw [Store.table_defineAll h]
  by_cases hshared : (fs.frame m).table = (fs.frame n).table
  · rw [if_pos hshared, if_pos hshared, table, hshared]
  · rw [if_neg hshared, if_neg hshared, table]

theorem define_of_not_symbol {name : Value} (h : ∀ x, name ≠ .symbol x) (fs : Frames) (n : Nat)
    (v : Value) : fs.define n name v = .error (.bindNonSymbol name) := by
  cases name <;> first | rfl | exact absurd rfl (h _)

/-! ## Adding a frame -/

theorem frame_add (fs : Frames) (f : Frame) (m : Nat) :
    (fs.add f).2.frame m = if m = fs.frames.size then f else fs.frame m := by
  simp only [frame, add, Array.getElem?_push]
  split <;> rfl

theorem frame_add_of_lt (fs : Frames) {m : Nat} (h : m < fs.frames.size) (f : Frame) :
    (fs.add f).2.frame m = fs.frame m := by
  rw [frame_add, if_neg (Nat.ne_of_lt h)]

theorem frame_addTable (fs : Frames) (t : Table) (outer : List Nat) (m : Nat) :
    (fs.addTable t outer).2.frame m =
      if m = fs.frames.size then ⟨fs.store.tables.size, outer⟩ else fs.frame m :=
  frame_add ..

@[simp] theorem size_add (fs : Frames) (f : Frame) :
    (fs.add f).2.frames.size = fs.frames.size + 1 := Array.size_push ..

@[simp] theorem size_addTable (fs : Frames) (t : Table) (outer : List Nat) :
    (fs.addTable t outer).2.frames.size = fs.frames.size + 1 := Array.size_push ..

/-- The tables of all frames are there, and their parents are older. -/
structure Founded (fs : Frames) : Prop where
  table_lt : ∀ n < fs.frames.size, (fs.frame n).table < fs.store.tables.size
  outer : ∀ n < fs.frames.size, ∃ p, (∀ m ∈ p, m < n) ∧ (fs.frame n).outer = fs.around p

/-- The frames are those of a history, in which those that share a table are joined. -/
structure Sound (fs : Frames) (ops : List Operation) : Prop extends Founded fs where
  after_eq : empty.after ops = fs
  shared : ∀ m n, Reparents ops m n →
    m < fs.frames.size ∧ n < fs.frames.size ∧ (fs.frame m).table = (fs.frame n).table
  connected : ∀ m < fs.frames.size, ∀ n < fs.frames.size,
    (fs.frame m).table = (fs.frame n).table → Connected ops m n

@[simp] theorem head?_around (fs : Frames) (p : Option Nat) : (fs.around p).head? = p := by
  cases p <;> rfl

namespace Sound

theorem shared_of_connected (h : fs.Sound ops) {m n : Nat} (hmn : Connected ops m n) :
    (fs.frame m).table = (fs.frame n).table := by
  induction hmn with
  | rel m n hmn => exact (h.shared m n hmn).2.2
  | refl n => rfl
  | symm m n _ ih => exact ih.symm
  | trans m n k _ _ ih ih' => exact ih.trans ih'

theorem shared_iff (h : fs.Sound ops) {m n : Nat} (hm : m < fs.frames.size)
    (hn : n < fs.frames.size) :
    (fs.frame m).table = (fs.frame n).table ↔ Connected ops m n :=
  ⟨h.connected m hm n hn, h.shared_of_connected⟩

end Sound

namespace Founded

/-! ### Parents -/

theorem outer_eq (h : fs.Founded) {n : Nat} (hn : n < fs.frames.size) :
    (fs.frame n).outer = fs.around (fs.parent n) := by
  obtain ⟨p, -, hp⟩ := h.outer n hn
  rw [parent, hp, head?_around]

theorem parent_lt (h : fs.Founded) {n p : Nat} (hn : n < fs.frames.size)
    (hp : fs.parent n = some p) : p < n := by
  obtain ⟨q, hlt, hq⟩ := h.outer n hn
  rw [parent, hq, head?_around] at hp
  exact hlt p hp

/-- Going to the parent is going on in the lineage. -/
theorem drop_lineage (h : fs.Founded) {n : Nat} (hn : n < fs.frames.size) (k : Nat) :
    (fs.lineage n).drop k = fs.around (fs.ancestor n k) ∧
      ∀ m, fs.ancestor n k = some m → m < fs.frames.size := by
  induction k with
  | zero => exact ⟨rfl, fun m hm => Option.some.inj hm ▸ hn⟩
  | succ k ih =>
    obtain ⟨hdrop, hlt⟩ := ih
    rw [← List.tail_drop, hdrop, ancestor]
    cases hk : fs.ancestor n k with
    | none => exact ⟨rfl, nofun⟩
    | some m =>
      have hm := hlt m hk
      exact ⟨h.outer_eq hm, fun p hp => Nat.lt_trans (h.parent_lt hm hp) hm⟩

theorem getElem?_lineage (h : fs.Founded) {n : Nat} (hn : n < fs.frames.size) (k : Nat) :
    (fs.lineage n)[k]? = fs.ancestor n k := by
  rw [← List.head?_drop, (h.drop_lineage hn k).1, head?_around]

/-- What is around a frame that is around another one is around that one, too. -/
theorem lineage_suffix (h : fs.Founded) {n m : Nat} (hn : n < fs.frames.size)
    (hm : m ∈ fs.lineage n) : fs.lineage m <:+ fs.lineage n ∧ m < fs.frames.size := by
  obtain ⟨k, hk⟩ := List.mem_iff_getElem?.mp hm
  rw [h.getElem?_lineage hn] at hk
  obtain ⟨hdrop, hlt⟩ := h.drop_lineage hn k
  rw [hk] at hdrop
  exact ⟨⟨_, (congrArg _ hdrop.symm).trans (List.take_append_drop k _)⟩, hlt m hk⟩

theorem endOf_root (h : fs.Founded) {n : Nat} (hn : n < fs.frames.size) :
    fs.EndOf n (fs.root n) := by
  have hlast : (fs.lineage n).getLast? = some (fs.root n) := List.getLast?_cons
  rw [List.getLast?_eq_getElem?, h.getElem?_lineage hn] at hlast
  refine ⟨_, hlast, ?_⟩
  -- one more step leaves the lineage
  have hend : fs.ancestor n (fs.lineage n).length = none := by
    rw [← h.getElem?_lineage hn, List.getElem?_eq_none (Nat.le_refl _)]
  rw [lineage, List.length_cons, Nat.add_sub_cancel] at hlast
  rwa [lineage, List.length_cons, ancestor, hlast] at hend

theorem root_lt (h : fs.Founded) {n : Nat} (hn : n < fs.frames.size) :
    fs.root n < fs.frames.size := by
  obtain ⟨k, hk, -⟩ := h.endOf_root hn
  exact (h.drop_lineage hn k).2 _ hk

theorem nearest_of_find? (h : fs.Founded) {n m : Nat} {x : String} (hn : n < fs.frames.size)
    (hm : fs.find? n (.symbol x) = some m) : fs.Nearest n x m := by
  obtain ⟨hcontains, k, hk, rfl, hbefore⟩ := List.find?_eq_some_iff_getElem.mp hm
  refine ⟨k, ?_, hcontains, fun j hj m' hm' => ?_⟩
  · rw [← h.getElem?_lineage hn, List.getElem?_eq_getElem hk]
  · rw [← h.getElem?_lineage hn, List.getElem?_eq_getElem (Nat.lt_trans hj hk)] at hm'
    obtain rfl := Option.some.inj hm'
    simpa using hbefore j hj

theorem lt_of_find? (h : fs.Founded) {n m : Nat} {x : String} (hn : n < fs.frames.size)
    (hm : fs.find? n (.symbol x) = some m) : m < fs.frames.size := by
  obtain ⟨k, hk, -⟩ := h.nearest_of_find? hn hm
  exact (h.drop_lineage hn k).2 m hk

theorem contains_eq_false_of_find? (h : fs.Founded) {n : Nat} {x : String}
    (hn : n < fs.frames.size) (hnone : fs.find? n (.symbol x) = none) {k m : Nat}
    (hm : fs.ancestor n k = some m) : (fs.table m).contains x = false := by
  rw [← h.getElem?_lineage hn] at hm
  simpa using List.find?_eq_none.mp hnone m (List.mem_of_getElem? hm)

/-! ### Frames that are added -/

/-- A frame may be added if its table and its parent are there. -/
theorem add (h : fs.Founded) {store : Store} {t : TableId} {p : Option Nat}
    (hstore : fs.store.tables.size ≤ store.tables.size) (ht : t < store.tables.size)
    (hp : ∀ m ∈ p, m < fs.frames.size) :
    ({ fs with store }.add ⟨t, fs.around p⟩).2.Founded := by
  -- frames are only ever added at the end, so those that were there have the same ones around them
  have hlast : ({ fs with store }.add ⟨t, fs.around p⟩).2.frame fs.frames.size =
      ⟨t, fs.around p⟩ := by
    rw [frame_add, if_pos rfl]
  have hold : ∀ {n}, n < fs.frames.size →
      ({ fs with store }.add ⟨t, fs.around p⟩).2.frame n = fs.frame n :=
    fun hn => frame_add_of_lt { fs with store } hn _
  have haround : ∀ {q : Option Nat}, (∀ m ∈ q, m < fs.frames.size) →
      ({ fs with store }.add ⟨t, fs.around p⟩).2.around q = fs.around q := by
    rintro (- | q) hq
    · rfl
    · rw [around, around, lineage, lineage, hold (hq q rfl)]
  refine ⟨fun n hn => ?_, fun n hn => ?_⟩
  · rw [size_add, Nat.lt_succ_iff_lt_or_eq] at hn
    rcases hn with hn | rfl
    · rw [hold hn]
      exact Nat.lt_of_lt_of_le (h.table_lt n hn) hstore
    · rw [hlast]
      exact ht
  · rw [size_add, Nat.lt_succ_iff_lt_or_eq] at hn
    rcases hn with hn | rfl
    · obtain ⟨q, hq, houter⟩ := h.outer n hn
      refine ⟨q, hq, ?_⟩
      rw [hold hn, houter, haround fun m hm => Nat.lt_trans (hq m hm) hn]
    · exact ⟨p, hp, by rw [hlast, haround hp]⟩

end Founded

/-! ## What an operation can do -/

theorem tables_env (fs : Frames) (n : Nat) :
    (fs.env n).tables = (fs.lineage n).map fun m => (fs.frame m).table := by
  simp [env, lineage]

theorem get?_symbol (fs : Frames) (n : Nat) (x : String) :
    fs.get? n (.symbol x) = (fs.lineage n).findSome? fun m => (fs.table m).get? x := by
  change fs.store.get? (fs.env n) x = _
  rw [Store.get?_eq, tables_env, List.findSome?_map]
  rfl

/-- A name is changed where it is found. -/
theorem set_symbol (fs : Frames) (n : Nat) (x : String) (v : Value) :
    fs.set n (.symbol x) v = ((fs.find? n (.symbol x)).elim (.error (.setUnbound x))
      fun m => .ok (fs.write m [(x, v)])) := by
  have hfind : fs.store.find? (fs.env n) x =
      (fs.find? n (.symbol x)).map fun m => (fs.frame m).table := by
    rw [Store.find?_eq, tables_env, List.find?_map]
    rfl
  rw [set, Store.set?, hfind]
  cases fs.find? n (.symbol x) <;> rfl

theorem set_of_not_symbol {name : Value} (h : ∀ x, name ≠ .symbol x) (fs : Frames) (n : Nat)
    (v : Value) : fs.set n name v = .error (.setNonSymbol name) := by
  cases name <;> first | rfl | exact absurd rfl (h _)

def symbols (us : List (String × Value)) : List (Value × Value) :=
  us.map fun u => (.symbol u.1, u.2)

/-- The pairs of a mapping: those of some pairs, with the last value of a name at its first
position. -/
def mapping (pairs : List (Value × Value)) : List (Value × Value) :=
  pairs.foldl (fun gathered p => gather p.1 p.2 gathered) []

/-- Names are bound in turn, up to the first that is not a symbol. -/
theorem defineAll_cases (fs : Frames) (n : Nat) (pairs : List (Value × Value)) :
    ∃ us, (pairs = symbols us ∧ defineAll n pairs fs = (none, fs.write n us)) ∨
      ∃ name v later, pairs = symbols us ++ (name, v) :: later ∧ (∀ x, name ≠ .symbol x) ∧
        defineAll n pairs fs = (some (.bindNonSymbol name), fs.write n us) := by
  induction pairs generalizing fs with
  | nil => exact ⟨[], .inl ⟨rfl, rfl⟩⟩
  | cons p rest ih =>
    obtain ⟨name, v⟩ := p
    by_cases hname : ∃ x, name = .symbol x
    · obtain ⟨x, rfl⟩ := hname
      rcases ih (fs.write n [(x, v)]) with ⟨us, ⟨rfl, hall⟩ | ⟨name, w, later, rfl, hname, hall⟩⟩
      · exact ⟨(x, v) :: us, .inl ⟨rfl, hall⟩⟩
      · exact ⟨(x, v) :: us, .inr ⟨name, w, later, rfl, hname, hall⟩⟩
    · rw [not_exists] at hname
      refine ⟨[], .inr ⟨name, v, rest, rfl, hname, ?_⟩⟩
      rw [defineAll, define_of_not_symbol hname]
      rfl

/-- The outermost frame around a frame is around it. -/
theorem root_mem_lineage (fs : Frames) (n : Nat) : fs.root n ∈ fs.lineage n :=
  List.mem_of_getLast? List.getLast?_cons

theorem mem_lineage_of_find? {n m : Nat} {x : String} (h : fs.find? n (.symbol x) = some m) :
    m ∈ fs.lineage n := by
  unfold find? at h
  exact List.mem_of_find?_eq_some h

/-- An operation that makes no frame binds names in the table of a frame around the one that it is
given. -/
theorem perform_of_not_makes (fs : Frames) {op : Operation} (hmakes : op.makes = false) :
    ∃ n ∈ op.given, ∃ m ∈ fs.lineage n, ∃ us, (fs.perform op).2 = fs.write m us := by
  have hdefine (n : Nat) (name v : Value) :
      ∃ us, (fs.attempt (fs.define n name v)).2 = fs.write n us := by
    by_cases hname : ∃ x, name = .symbol x
    · obtain ⟨x, rfl⟩ := hname
      exact ⟨[(x, v)], rfl⟩
    · rw [define_of_not_symbol (not_exists.mp hname)]
      exact ⟨[], rfl⟩
  cases op with
  | define n name v =>
    exact ⟨n, List.mem_cons_self, n, List.mem_cons_self, hdefine n name v⟩
  | defineGlobal n name v =>
    exact ⟨n, List.mem_cons_self, fs.root n, fs.root_mem_lineage n, hdefine _ name v⟩
  | set n name v =>
    refine ⟨n, List.mem_cons_self, ?_⟩
    by_cases hname : ∃ x, name = .symbol x
    · obtain ⟨x, rfl⟩ := hname
      rw [perform, set_symbol]
      cases hfind : fs.find? n (.symbol x) with
      | none => exact ⟨n, List.mem_cons_self, [], rfl⟩
      | some m => exact ⟨m, mem_lineage_of_find? hfind, _, rfl⟩
    · rw [perform, set_of_not_symbol (not_exists.mp hname)]
      exact ⟨n, List.mem_cons_self, [], rfl⟩
  | update n pairs =>
    refine ⟨n, List.mem_cons_self, n, List.mem_cons_self, ?_⟩
    obtain ⟨us, ⟨-, hall⟩ | ⟨name, v, later, -, -, hall⟩⟩ := defineAll_cases fs n (mapping pairs)
    · exact ⟨us, congrArg Prod.snd hall⟩
    · exact ⟨us, congrArg Prod.snd hall⟩
  | new | copy | collapse | reparent => cases hmakes

/-- An operation makes a frame with a table of its own, makes one that shares a table, or binds
names in the table of one frame. -/
theorem perform_cases (h : fs.Sound ops) {op : Operation}
    (hop : ∀ n ∈ op.given, n < fs.frames.size) :
    (op.makes = true ∧ (∀ m outer, op ≠ .reparent m outer) ∧
        ∃ t p, (∀ m ∈ p, m < fs.frames.size) ∧
          fs.perform op = (none, (fs.addTable t (fs.around p)).2)) ∨
      (∃ m p, m < fs.frames.size ∧ (∀ m ∈ p, m < fs.frames.size) ∧ op = .reparent m p) ∨
      (op.makes = false ∧ ∃ n < fs.frames.size, ∃ us, (fs.perform op).2 = fs.write n us) := by
  by_cases hmakes : op.makes = false
  · obtain ⟨n, hn, m, hm, hus⟩ := perform_of_not_makes fs hmakes
    exact .inr (.inr ⟨hmakes, m, (h.lineage_suffix (hop n hn) hm).2, hus⟩)
  · cases op with
    | new outer =>
      exact .inl ⟨rfl, nofun, .empty, outer, fun m hm => hop m (Option.mem_toList.mpr hm), rfl⟩
    | copy n =>
      have hn := hop n List.mem_cons_self
      refine .inl ⟨rfl, nofun, fs.table n, fs.parent n, fun m hm => ?_, ?_⟩
      · exact Nat.lt_trans (h.parent_lt hn hm) hn
      · rw [← h.outer_eq hn]
        rfl
    | collapse n => exact .inl ⟨rfl, nofun, fs.store.collapse (fs.env n), none, nofun, rfl⟩
    | reparent m p =>
      refine .inr (.inl ⟨m, p, hop m List.mem_cons_self, fun k hk => hop k ?_, rfl⟩)
      exact List.mem_cons_of_mem _ (Option.mem_toList.mpr hk)
    | _ => exact absurd rfl hmakes

/-! ## What every operation keeps -/

namespace Sound

theorem empty : empty.Sound [] where
  after_eq := rfl
  table_lt := nofun
  outer := nofun
  shared := by
    rintro m n ⟨before, outer, later, hops, -⟩
    simp at hops
  connected := nofun

/-- A frame may be added that shares a table only if it is joined to those it shares it with. -/
theorem add (h : fs.Sound ops) {op : Operation} (store : Store) {t : TableId} {p : Option Nat}
    (hperform : (fs.perform op).2 = ({ fs with store }.add ⟨t, fs.around p⟩).2)
    (hstore : fs.store.tables.size ≤ store.tables.size) (ht : t < store.tables.size)
    (hp : ∀ m ∈ p, m < fs.frames.size)
    (hshared : ∀ m outer, op = .reparent m outer →
      m < fs.frames.size ∧ (fs.frame m).table = t)
    (hconnected : ∀ m < fs.frames.size, (fs.frame m).table = t →
      Connected (ops ++ [op]) m fs.frames.size) :
    (fs.perform op).2.Sound (ops ++ [op]) := by
  have hsize : (fs.perform op).2.frames.size = fs.frames.size + 1 := by rw [hperform, size_add]
  have hlast : (fs.perform op).2.frame fs.frames.size = ⟨t, fs.around p⟩ := by
    rw [hperform, frame_add, if_pos rfl]
  have hold : ∀ {n}, n < fs.frames.size → (fs.perform op).2.frame n = fs.frame n := by
    intro n hn
    rw [hperform]
    exact frame_add_of_lt { fs with store } hn _
  refine ⟨hperform ▸ h.toFounded.add hstore ht hp, ?_, ?_, ?_⟩
  · rw [after_concat, h.after_eq]
  · intro m n hmn
    rcases reparents_concat hmn with hmn | ⟨⟨outer, hop⟩, hn⟩
    · obtain ⟨hm, hn, htable⟩ := h.shared m n hmn
      rw [hsize, hold hm, hold hn]
      exact ⟨Nat.lt_succ_of_lt hm, Nat.lt_succ_of_lt hn, htable⟩
    · rw [h.after_eq] at hn
      obtain ⟨hm, hmt⟩ := hshared m outer hop
      rw [hsize, hn, hlast, hold hm]
      exact ⟨Nat.lt_succ_of_lt hm, Nat.lt_succ_self _, hmt⟩
  · intro m hm n hn hmn
    rw [hsize, Nat.lt_succ_iff_lt_or_eq] at hm hn
    rcases hm with hm | rfl <;> rcases hn with hn | rfl
    · rw [hold hm, hold hn] at hmn
      exact (h.connected m hm n hn hmn).append _
    · rw [hold hm, hlast] at hmn
      exact hconnected m hm hmn
    · rw [hold hn, hlast] at hmn
      exact (hconnected n hn hmn.symm).symm
    · exact .refl _

/-- Binding names in a table changes nothing about the frames. -/
theorem write (h : fs.Sound ops) {op : Operation} (hmakes : op.makes = false) {n : Nat}
    {us : List (String × Value)} (hperform : (fs.perform op).2 = fs.write n us) :
    (fs.perform op).2.Sound (ops ++ [op]) where
  after_eq := by rw [after_concat, h.after_eq]
  table_lt := by
    rw [hperform]
    intro m hm
    rw [size_store_write]
    exact h.table_lt m hm
  outer := by
    rw [hperform]
    exact h.outer
  shared m k hmk := by
    rw [hperform]
    rcases reparents_concat hmk with hmk | ⟨⟨outer, rfl⟩, -⟩
    · exact h.shared m k hmk
    · cases hmakes
  connected := by
    rw [hperform]
    exact fun m hm k hk hmk => (h.connected m hm k hk hmk).append _

/-- Every operation on frames that are there leaves them as those of a history. -/
theorem perform (h : fs.Sound ops) {op : Operation}
    (hop : ∀ n ∈ op.given, n < fs.frames.size) : (fs.perform op).2.Sound (ops ++ [op]) := by
  rcases perform_cases h hop with ⟨-, hother, t, p, hp, hperform⟩ | ⟨m, p, hm, hp, rfl⟩ |
    ⟨hmakes, n, -, us, hperform⟩
  · refine h.add (fs.store.allocate t).2 (congrArg Prod.snd hperform)
      (by simp) (by simp [Store.allocate]) hp (fun m outer hop => absurd hop (hother m outer))
      fun m hm hmt => ?_
    exact absurd hmt (Nat.ne_of_lt (h.table_lt m hm))
  · refine h.add fs.store rfl (Nat.le_refl _) (h.table_lt m hm) hp ?_ ?_
    · rintro _ _ ⟨rfl, rfl⟩
      exact ⟨hm, rfl⟩
    · intro k hk hkm
      have hlast : Reparents (ops ++ [.reparent m p]) m fs.frames.size :=
        ⟨ops, p, [], rfl, by rw [h.after_eq]⟩
      exact .trans _ _ _ ((h.connected k hk m hm hkm).append _) (.rel _ _ hlast)
  · exact h.write hmakes hperform

end Sound

/-- The frames after operations on frames that are there. -/
theorem sound_after (h : empty.Valid ops) : (empty.after ops).Sound ops := by
  induction ops using List.reverseRecOn with
  | nil => exact .empty
  | append_singleton ops op ih =>
    obtain ⟨hops, hop⟩ := valid_concat.mp h
    rw [after_concat]
    exact (ih hops).perform hop

/-! ## What changes and what stays -/

/-- No frame that is there is made into another one. -/
theorem frame_perform (h : fs.Sound ops) {op : Operation}
    (hop : ∀ n ∈ op.given, n < fs.frames.size) {n : Nat} (hn : n < fs.frames.size) :
    (fs.perform op).2.frame n = fs.frame n := by
  rcases perform_cases h hop with ⟨-, -, t, p, -, hperform⟩ | ⟨m, p, -, -, rfl⟩ |
    ⟨-, m, -, us, hperform⟩
  · rw [hperform, frame_addTable, if_neg (Nat.ne_of_lt hn)]
  · exact frame_add_of_lt fs hn _
  · rw [hperform, frame_write]

/-- Making a frame changes no table of another. -/
theorem perform_of_makes (h : fs.Sound ops) {op : Operation} (hmakes : op.makes = true)
    (hop : ∀ n ∈ op.given, n < fs.frames.size) :
    (fs.perform op).1 = none ∧ (fs.perform op).2.frames.size = fs.frames.size + 1 ∧
      ∀ m < fs.frames.size, (fs.perform op).2.table m = fs.table m := by
  have hframe (m : Nat) (hm : m < fs.frames.size) := frame_perform h hop hm
  rcases perform_cases h hop with ⟨-, -, t, p, -, hperform⟩ | ⟨m, p, -, -, rfl⟩ | ⟨hother, -⟩
  · rw [hperform] at hframe ⊢
    refine ⟨rfl, size_addTable .., fun m hm => ?_⟩
    rw [table, hframe m hm]
    exact Store.table_allocate_of_lt (h.table_lt m hm) t
  · refine ⟨rfl, size_add .., fun k hk => ?_⟩
    rw [table, hframe k hk]
    rfl
  · rw [hmakes] at hother
    cases hother

/-- Names are bound in the table of a frame and of those that are joined to it, and everything
else stays as it was. -/
def Changes (ops : List Operation) (fs fs' : Frames) (n : Nat) (us : List (String × Value)) :
    Prop :=
  ∀ m < fs.frames.size,
    (Connected ops n m → fs'.table m = (fs.table m).insertAll us) ∧
      (¬ Connected ops n m → fs'.table m = fs.table m)

theorem Sound.changes_write (h : fs.Sound ops) {n : Nat} (hn : n < fs.frames.size)
    (us : List (String × Value)) : Changes ops fs (fs.write n us) n us := by
  intro m hm
  rw [table_write (h.table_lt n hn), ← h.shared_iff hn hm]
  exact ⟨fun hshared => if_pos hshared.symm, fun hother => if_neg (Ne.symm hother)⟩

theorem get?_insertAll_singleton (t : Table) (x y : String) (v : Value) :
    (t.insertAll [(x, v)]).get? y = if y = x then some v else t.get? y :=
  t.get?_insert x y v

/-- A name has its new value where it was looked up. -/
theorem Sound.get?_write_of_find? (h : fs.Sound ops) {n m : Nat} {x : String}
    (hn : n < fs.frames.size) (hm : fs.find? n (.symbol x) = some m) (v : Value) :
    (fs.write m [(x, v)]).get? n (.symbol x) = some v := by
  have htable := table_write (h.table_lt m (h.lt_of_find? hn hm)) [(x, v)]
  obtain ⟨hcontains, before, later, hlineage, hbefore⟩ := List.find?_eq_some_iff_append.mp hm
  rw [get?_symbol, lineage_write, hlineage, List.findSome?_append]
  -- a frame before the one that is found binds no such name, so it does not share its table
  have hnone : before.findSome? (fun k => ((fs.write m [(x, v)]).table k).get? x) = none := by
    rw [List.findSome?_eq_none_iff]
    intro k hk
    have hfree : (fs.table k).contains x = false := by simpa using hbefore k hk
    have hother : (fs.frame k).table ≠ (fs.frame m).table := by
      intro hshared
      rw [table, hshared] at hfree
      exact Bool.false_ne_true (hfree.symm.trans hcontains)
    rw [htable, if_neg hother]
    simpa [Table.contains] using hfree
  rw [hnone, Option.none_or, List.findSome?_cons, htable, if_pos rfl, get?_insertAll_singleton,
    if_pos rfl]

/-- Other names keep their values everywhere. -/
theorem Sound.get?_write_of_ne (h : fs.Sound ops) {m : Nat} (hm : m < fs.frames.size)
    {x y : String} (hy : y ≠ x) (v : Value) (n : Nat) :
    (fs.write m [(x, v)]).get? n (.symbol y) = fs.get? n (.symbol y) := by
  rw [get?_symbol, get?_symbol, lineage_write]
  congr 1
  funext k
  rw [table_write (h.table_lt m hm)]
  split
  · rw [get?_insertAll_singleton, if_neg hy]
  · rfl

/-- An assignment changes the nearest binding, or fails and changes nothing. -/
theorem set_cases (h : fs.Sound ops) {n : Nat} (hn : n < fs.frames.size) (x : String) (v : Value) :
    (∃ m, fs.Nearest n x m ∧ (fs.perform (.set n (.symbol x) v)).1 = none ∧
        Changes ops fs (fs.perform (.set n (.symbol x) v)).2 m [(x, v)] ∧
        (fs.perform (.set n (.symbol x) v)).2.get? n (.symbol x) = some v ∧
        ∀ y ≠ x, ∀ k < fs.frames.size,
          (fs.perform (.set n (.symbol x) v)).2.get? k (.symbol y) = fs.get? k (.symbol y)) ∨
      (∀ k m, fs.ancestor n k = some m → (fs.table m).contains x = false) ∧
        fs.perform (.set n (.symbol x) v) = (some (.setUnbound x), fs) := by
  rw [perform, set_symbol]
  cases hfind : fs.find? n (.symbol x) with
  | none => exact .inr ⟨fun k m hm => h.contains_eq_false_of_find? hn hfind hm, rfl⟩
  | some m =>
    have hm := h.lt_of_find? hn hfind
    exact .inl ⟨m, h.nearest_of_find? hn hfind, rfl, h.changes_write hm _,
      h.get?_write_of_find? hn hfind v, fun y hy k _ => h.get?_write_of_ne hm hy v k⟩

/-- Bindings are made in turn, up to the first of something that is not a symbol. -/
theorem update_cases (h : fs.Sound ops) {n : Nat} (hn : n < fs.frames.size)
    (pairs : List (Value × Value)) :
    ∃ us, Changes ops fs (fs.perform (.update n pairs)).2 n us ∧
      ((mapping pairs = symbols us ∧ (fs.perform (.update n pairs)).1 = none) ∨
        ∃ name v later, mapping pairs = symbols us ++ (name, v) :: later ∧
          (∀ x, name ≠ .symbol x) ∧
          (fs.perform (.update n pairs)).1 = some (.bindNonSymbol name)) := by
  have hperform : fs.perform (.update n pairs) = defineAll n (mapping pairs) fs := rfl
  obtain ⟨us, ⟨hus, hall⟩ | ⟨name, v, later, hus, hname, hall⟩⟩ :=
    defineAll_cases fs n (mapping pairs)
  · rw [hperform, hall]
    exact ⟨us, h.changes_write hn us, .inl ⟨hus, rfl⟩⟩
  · rw [hperform, hall]
    exact ⟨us, h.changes_write hn us, .inr ⟨name, v, later, hus, hname, rfl⟩⟩

theorem gather_of_not_mem {name : Value} {pairs : List (Value × Value)}
    (h : name ∉ pairs.map Prod.fst) (v : Value) : gather name v pairs = pairs ++ [(name, v)] := by
  induction pairs with
  | nil => rfl
  | cons p pairs ih =>
    rw [List.map_cons, List.mem_cons, not_or] at h
    rw [gather, if_neg (Ne.symm h.1), ih h.2, List.cons_append]

/-- Pairs of different names are a mapping as they are. -/
theorem mapping_of_nodup {pairs : List (Value × Value)} (h : (pairs.map Prod.fst).Nodup) :
    mapping pairs = pairs := by
  induction pairs using List.reverseRecOn with
  | nil => rfl
  | append_singleton pairs p ih =>
    rw [List.map_append, List.nodup_append] at h
    obtain ⟨hpairs, -, hdisjoint⟩ := h
    have hfresh : p.1 ∉ pairs.map Prod.fst := fun hp => hdisjoint _ hp p.1 (by simp) rfl
    have hstep : mapping (pairs ++ [p]) = gather p.1 p.2 (mapping pairs) := List.foldl_append
    rw [hstep, ih hpairs, gather_of_not_mem hfresh]

/-- **Sharing.** After any operations on frames, some of which may have failed:

* Two frames share a table if and only if they are joined by frames that were given other frames
  around them, and then they show the same bindings in the same order.
* Making a frame changes no binding. Binding a name changes only the frame, or the one at the end of
  its parents, and those that share its table; an assignment changes only the nearest frame that
  binds the name, and those that share its table. From where it was made, the name has the new value
  then; other names keep theirs everywhere.
* An operation that fails changes nothing, but for the pairs of a mapping that come before the first
  that cannot be bound.
* Parents never change, and they come to an end. -/
theorem sharing_discipline (ops : List Operation) (h : empty.Valid ops) :
    let fs := empty.after ops
    (∀ m < fs.frames.size, ∀ n < fs.frames.size,
      ((fs.frame m).table = (fs.frame n).table ↔ Connected ops m n) ∧
        (Connected ops m n → fs.table m = fs.table n)) ∧
    (∀ op : Operation, op.makes = true → (∀ n ∈ op.given, n < fs.frames.size) →
      (fs.perform op).1 = none ∧ (fs.perform op).2.frames.size = fs.frames.size + 1 ∧
        ∀ m < fs.frames.size, (fs.perform op).2.table m = fs.table m) ∧
    (∀ n < fs.frames.size, ∀ (x : String) (v : Value),
      ((fs.perform (.define n (.symbol x) v)).1 = none ∧
        Changes ops fs (fs.perform (.define n (.symbol x) v)).2 n [(x, v)]) ∧
      (∃ r, fs.EndOf n r ∧ (fs.perform (.defineGlobal n (.symbol x) v)).1 = none ∧
        Changes ops fs (fs.perform (.defineGlobal n (.symbol x) v)).2 r [(x, v)]) ∧
      ((∃ m, fs.Nearest n x m ∧ (fs.perform (.set n (.symbol x) v)).1 = none ∧
          Changes ops fs (fs.perform (.set n (.symbol x) v)).2 m [(x, v)] ∧
          (fs.perform (.set n (.symbol x) v)).2.get? n (.symbol x) = some v ∧
          ∀ y ≠ x, ∀ k < fs.frames.size,
            (fs.perform (.set n (.symbol x) v)).2.get? k (.symbol y) = fs.get? k (.symbol y)) ∨
        (∀ k m, fs.ancestor n k = some m → (fs.table m).contains x = false) ∧
          fs.perform (.set n (.symbol x) v) = (some (.setUnbound x), fs))) ∧
    (∀ n < fs.frames.size, ∀ name v : Value, (∀ x, name ≠ .symbol x) →
      fs.perform (.define n name v) = (some (.bindNonSymbol name), fs) ∧
      fs.perform (.defineGlobal n name v) = (some (.bindNonSymbol name), fs) ∧
      fs.perform (.set n name v) = (some (.setNonSymbol name), fs)) ∧
    (∀ n < fs.frames.size, ∀ pairs : List (Value × Value),
      ((pairs.map Prod.fst).Nodup → mapping pairs = pairs) ∧
      ∃ us, Changes ops fs (fs.perform (.update n pairs)).2 n us ∧
        ((mapping pairs = symbols us ∧ (fs.perform (.update n pairs)).1 = none) ∨
          ∃ name v later, mapping pairs = symbols us ++ (name, v) :: later ∧
            (∀ x, name ≠ .symbol x) ∧
            (fs.perform (.update n pairs)).1 = some (.bindNonSymbol name))) ∧
    (∀ op : Operation, (∀ n ∈ op.given, n < fs.frames.size) →
      ∀ n < fs.frames.size, (fs.perform op).2.parent n = fs.parent n) ∧
    ∀ n < fs.frames.size, (∀ p, fs.parent n = some p → p < n) ∧
      ∀ k, fs.ancestor n k = (fs.lineage n)[k]? := by
  intro fs
  have hs : fs.Sound ops := sound_after h
  refine ⟨fun m hm n hn => ⟨hs.shared_iff hm hn, fun hmn => ?_⟩,
    fun op hmakes hop => perform_of_makes hs hmakes hop, fun n hn x v => ⟨?_, ?_, ?_⟩,
    fun n hn name v hname => ?_,
    fun n hn pairs => ⟨mapping_of_nodup, update_cases hs hn pairs⟩,
    fun op hop n hn => ?_, fun n hn => ⟨fun p hp => hs.parent_lt hn hp, fun k => ?_⟩⟩
  · rw [table, table, hs.shared_of_connected hmn]
  · exact ⟨rfl, hs.changes_write hn [(x, v)]⟩
  · exact ⟨fs.root n, hs.endOf_root hn, rfl, hs.changes_write (hs.root_lt hn) [(x, v)]⟩
  · exact set_cases hs hn x v
  · rw [perform, perform, perform, defineGlobal, define_of_not_symbol hname,
      define_of_not_symbol hname, set_of_not_symbol hname]
    exact ⟨rfl, rfl, rfl⟩
  · rw [parent, parent, frame_perform hs hop hn]
  · exact (hs.getElem?_lineage hn k).symm

/-- Two views of a frame and a copy, with a binding that fails. -/
theorem sharing_discipline_of_two_views :
    let ops : List Operation := [.new none, .define 0 (.symbol "x") (.integer 1), .new (some 0),
      .reparent 1 none, .define 2 (.symbol "x") (.integer 2), .copy 1,
      .update 1 [(.symbol "y", .integer 3), (.integer 4, .integer 5), (.symbol "z", .integer 6)],
      .reparent 2 (some 3)]
    empty.Valid ops ∧ Connected ops 1 4 ∧ ¬ Connected ops 1 3 ∧
      (empty.after ops).table 4 = (empty.after ops).table 1 ∧
      ((empty.after ops).table 1).names = ["x", "y"] ∧
      (empty.after ops).ancestor 4 2 = some 0 := by
  intro ops
  have hvalid : empty.Valid ops := by decide
  have hsize : (empty.after ops).frames.size = 5 := by decide
  obtain ⟨hshared, -, -, -, -, -, hparents⟩ := sharing_discipline ops hvalid
  rw [hsize] at hshared hparents
  have hjoined : Connected ops 1 4 := (hshared 1 (by decide) 4 (by decide)).1.mp (by decide)
  refine ⟨hvalid, hjoined, fun h => ?_, ((hshared 1 (by decide) 4 (by decide)).2 hjoined).symm,
    by decide, ?_⟩
  · exact absurd ((hshared 1 (by decide) 3 (by decide)).1.mpr h) (by decide)
  · rw [(hparents 4 (by decide)).2]
    decide

end MiniScheme.Frames
