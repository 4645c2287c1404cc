import Mathlib.Data.List.Induction
import Mathlib.Logic.Function.Basic
import MiniScheme.Proofs.Calculus.Program
import MiniScheme.Proofs.Prelude.Installed

/-!
# Accounts

A procedure that returns a procedure gives each of these a balance of its own: a parameter of the
outer one, which the inner one captures and changes. Accounts are created and called in any order,
under names that may be those of the parameters. The balance of an account depends on its own calls
only.

## Main definitions

* `Accounts.maker`: the expression of the procedure that makes accounts.
* `Accounts.Step`, `Accounts.Valid`: creating and calling accounts, in an order that makes sense.
* `Accounts.Bank`: how the store holds the balances.

## Main statements

* `Accounts.gives_create`, `Accounts.gives_call`: what the two steps do.
* `Accounts.Bank.create`, `Accounts.Bank.call`: both keep the balances.
* `Accounts.run_call_of_created`: every call of every account.
-/

namespace MiniScheme

def Session.runAll (session : Session) (traced : Bool) (sources : List String) (world : World) :
    World :=
  sources.foldl (fun world source => (session.run traced source world).world) world

namespace Accounts

open Calculus

/-! ## Programs -/

/-- `(set! b (- b amt))` -/
def withdrawal : Value :=
  phrase "set!" [.symbol "b", phrase "-" [.symbol "b", .symbol "amt"]]

/-- `(lambda (amt) (set! b (- b amt)))` -/
def account : Value := phrase "lambda" [.chain [.symbol "amt"] .nil, withdrawal]

/-- `(lambda (b) (lambda (amt) (set! b (- b amt))))` -/
def maker : Value := phrase "lambda" [.chain [.symbol "b"] .nil, account]

/-- `(define make-account (lambda (b) (lambda (amt) (set! b (- b amt)))))` -/
def definition : Value := phrase "define" [.symbol "make-account", maker]

def accountClosure (place : TableId) : Value :=
  .closure (.chain [.symbol "amt"] .nil) (.chain [withdrawal] .nil) place

def makerClosure (place : TableId) : Value :=
  .closure (.chain [.symbol "b"] .nil) (.chain [account] .nil) place

inductive Step where
  | create (name : String) (balance : Int)
  | call (name : String) (amount : Int)
  deriving DecidableEq, Repr

/-- `(define name (make-account balance))` and `(name amount)` -/
def Step.form : Step → Value
  | create x balance => phrase "define" [.symbol x, phrase "make-account" [.integer balance]]
  | call x amount => phrase x [.integer amount]

def names : List Step → List String
  | [] => []
  | .create x _ :: steps => x :: names steps
  | .call _ _ :: steps => names steps

def spent (x : String) : List Step → Int
  | [] => 0
  | .create _ _ :: steps => spent x steps
  | .call y amount :: steps => (if y = x then amount else 0) + spent x steps

/-- Accounts are created under names of their own, and each is called only once it is there. -/
inductive Valid : List Step → Prop where
  | nil : Valid []
  | create {steps : List Step} {x : String} (h : Valid steps) (hname : Expr.IsName x)
      (hmaker : x ≠ "make-account") (hfresh : x ∉ names steps) (balance : Int) :
      Valid (steps ++ [.create x balance])
  | call {steps : List Step} {x : String} (h : Valid steps) (hmem : x ∈ names steps)
      (amount : Int) : Valid (steps ++ [.call x amount])

theorem names_append (steps more : List Step) :
    names (steps ++ more) = names steps ++ names more := by
  induction steps with
  | nil => rfl
  | cons step steps ih => cases step <;> simp [names, ih]

theorem spent_append (x : String) (steps more : List Step) :
    spent x (steps ++ more) = spent x steps + spent x more := by
  induction steps with
  | nil => simp [spent]
  | cons step steps ih => cases step <;> simp [spent, ih, Int.add_assoc]

theorem mem_names_iff {x : String} {steps : List Step} :
    x ∈ names steps ↔ ∃ balance, .create x balance ∈ steps := by
  induction steps with
  | nil => simp [names]
  | cons step steps ih => cases step <;> simp [names, ih, exists_or]

namespace Valid

variable {steps : List Step} {x : String} {amount : Int}

theorem of_call (h : Valid (steps ++ [.call x amount])) : Valid steps ∧ x ∈ names steps := by
  generalize hall : steps ++ [Step.call x amount] = all at h
  cases h with
  | nil => simp at hall
  | create => simp at hall
  | call h hmem amount' =>
    obtain ⟨rfl, hstep⟩ := List.append_inj' hall rfl
    obtain ⟨rfl, -⟩ := Step.call.inj (List.singleton_inj.mp hstep)
    exact ⟨h, hmem⟩

theorem spent_eq_zero (h : Valid steps) (hx : x ∉ names steps) : spent x steps = 0 := by
  induction h with
  | nil => rfl
  | create _ _ _ _ balance ih =>
    rw [names_append, List.mem_append, not_or] at hx
    rw [spent_append, ih hx.1]
    rfl
  | @call steps y _ hmem amount ih =>
    rw [names_append, List.mem_append, not_or] at hx
    have hy : y ≠ x := fun hy => hx.1 (hy ▸ hmem)
    rw [spent_append, ih hx.1]
    simp [spent, hy]

theorem of_create {balance : Int} (h : Valid (steps ++ [.create x balance])) :
    Valid steps ∧ Expr.IsName x ∧ x ≠ "make-account" ∧ x ∉ names steps := by
  generalize hall : steps ++ [Step.create x balance] = all at h
  cases h with
  | nil => simp at hall
  | create h hname hmaker hfresh balance' =>
    obtain ⟨rfl, hstep⟩ := List.append_inj' hall rfl
    obtain ⟨rfl, -⟩ := Step.create.inj (List.singleton_inj.mp hstep)
    exact ⟨h, hname, hmaker, hfresh⟩
  | call => simp at hall

end Valid

/-! ## The store -/

/-- An account: the root binds its name to a closure whose table has the balance. -/
structure Account (installation : Nat) (root : TableId) (store : Store) (x : String)
    (balance : Int) (place : TableId) : Prop where
  bound : (store.table root).get? x = some (accountClosure place)
  ne : place ≠ root
  shows : ShowsBuiltins installation (store.table place).get?
  balance : (store.table place).get? "b" = some (.integer balance)

structure Maker (installation : Nat) (root : TableId) (store : Store) (place : TableId) :
    Prop where
  bound : (store.table root).get? "make-account" = some (makerClosure place)
  ne : place ≠ root
  shows : ShowsBuiltins installation (store.table place).get?

def bodyEnv (root place : TableId) (store : Store) : Env :=
  ((⟨[], root⟩ : Env).push place).push store.tables.size

section Calls

variable {installation : Nat} {root place : TableId} {store : Store} {traced : Bool} {depth : Nat}

/-- What a call binds hides no built-in. -/
theorem shows_body {x : String} {v : Value} (hx : x ∉ builtinNames)
    (h : ShowsBuiltins installation (store.table place).get?) :
    ShowsBuiltins installation
      ((store.openScope [(x, v)]).get? (bodyEnv root place store)) :=
  h.openScope (Prelude.lt_size_of_shows h) (by simpa using hx)

/-- A name in a body means its operand, or else what the closure has captured. -/
theorem get?_body (h : place < store.tables.size) (x y : String) (v : Value) :
    (store.openScope [(x, v)]).get? (bodyEnv root place store) y =
      if y = x then some v else
        ((store.table place).get? y).or ((store.openScope [(x, v)]).get? ⟨[], root⟩ y) := by
  rw [bodyEnv, Store.get?_push, Store.get?_push, Store.table_openScope, if_pos rfl,
    Store.table_openScope_of_lt h]
  change ((Table.empty.insert x v).get? y).or _ = _
  rw [Table.get?_insert]
  split <;> rfl

/-- A call of a closure with one parameter and one expression on an integer. -/
theorem gives_run (x : String) {n : Int} (hn : traced = true → Text.isWritable n = true)
    {e v : Value} {store₁ : Store}
    (h : Gives (eval traced (depth + 1) (bodyEnv root place store) e .nil)
      (store.openScope [(x, .integer n)]) v store₁) :
    Gives (step (.ofDepth traced (depth + 1)) ⟨[], root⟩
      (.closure (.chain [.symbol x] .nil) (.chain [e] .nil) place) (.chain [.integer n] .nil))
      store v store₁ := by
  have hes : List.Forall₂ (fun e v => ∀ store,
      Gives (eval traced (depth + 1) ⟨[], root⟩ e .nil) store v store)
      [.integer n] [.integer n] := .cons (fun _ => .integer n) .nil
  have hwords : traced = true → ∀ v ∈ [Value.integer n], v.obstacle? (depth + 1) = none := by
    intro htraced
    simp [Value.obstacle?, hn htraced]
  have hrun : Gives (Closure.run (.ofDepth traced (depth + 1)) ⟨[], root⟩
      (.chain ([x].map .symbol) .nil) (.chain [e] .nil) place (.chain [.integer n] .nil)) store v
      store₁ := .call hes rfl hwords h
  exact hrun

def paid (store : Store) (place : TableId) (amount rest : Int) : Store :=
  (store.openScope [("amt", .integer amount)]).define place "b" (.integer rest)

/-- A call of an account lowers its balance and answers with it. -/
theorem gives_call {x : String} {balance amount : Int}
    (h : Account installation root store x balance place)
    (hamount : traced = true → Text.isWritable amount = true) :
    Gives (eval traced (depth + 7) ⟨[], root⟩ (Step.call x amount).form .nil) store
      (.integer (balance - amount)) (paid store place amount (balance - amount)) := by
  have hlt := Prelude.lt_size_of_shows h.shows
  let inner := store.openScope [("amt", .integer amount)]
  let env := bodyEnv root place store
  have hshows : ShowsBuiltins installation (inner.get? env) := shows_body (by decide) h.shows
  have hb : inner.get? env "b" = some (.integer balance) := by
    rw [get?_body hlt, if_neg (by decide), h.balance]
    rfl
  have hamt : inner.get? env "amt" = some (.integer amount) := by
    rw [get?_body hlt, if_pos rfl]
  -- `b` is not among the parameters, so `set!` finds it in the captured table
  have hfind : inner.find? env "b" = some place := by
    have hscope : (inner.table store.tables.size).contains "b" = false := by
      rw [Store.table_openScope, if_pos rfl]
      rfl
    have hplace : (inner.table place).contains "b" = true := by
      rw [Store.table_openScope_of_lt hlt, Table.contains, h.balance]
      rfl
    rw [Store.find?_eq]
    change ([store.tables.size, place, root].find? fun id => (inner.table id).contains "b") = _
    simp only [List.find?_cons, hscope, hplace]
  have hrest : Gives (eval traced (depth + 3) env (phrase "-" [.symbol "b", .symbol "amt"]) .nil)
      inner (.integer (balance - amount)) inner :=
    .native (hshows.native .subtract) (by decide) (fun _ => rfl)
      (.cons (.symbol hb) (.cons (.symbol hamt) .nil)) rfl
  have hbody : Gives (eval traced (depth + 5) env withdrawal .nil) inner
      (.integer (balance - amount)) (paid store place amount (balance - amount)) :=
    .callByName (hshows.form .assign) rfl (fun _ => rfl) (.assign hrest hfind)
  have hcall : Gives (step (.ofDepth traced (depth + 5)) ⟨[], root⟩ (accountClosure place)
      (.chain [.integer amount] .nil)) store (.integer (balance - amount))
      (paid store place amount (balance - amount)) :=
    gives_run "amt" hamount hbody
  have hx : store.get? ⟨[], root⟩ x = some (accountClosure place) := h.bound
  refine .callByName hx rfl (fun htraced => ?_) hcall
  simp [Event.obstacle?, Event.values, Value.obstacle?, hamount htraced]

/-- The store in which an account has been made: the scope of the call, and what the account has
captured. -/
def made (store : Store) (root place : TableId) (balance : Int) : Store :=
  ((store.openScope [("b", .integer balance)]).allocate
    ((store.openScope [("b", .integer balance)]).collapse (bodyEnv root place store))).2

/-- A call of the procedure that makes accounts. -/
theorem gives_make (h : Maker installation root store place) {balance : Int}
    (hbalance : traced = true → Text.isWritable balance = true) :
    Gives (eval traced (depth + 6) ⟨[], root⟩ (phrase "make-account" [.integer balance]) .nil) store
      (accountClosure (store.tables.size + 1)) (made store root place balance) := by
  have hshows : ShowsBuiltins installation ((store.openScope [("b", .integer balance)]).get?
      (bodyEnv root place store)) := shows_body (by decide) h.shows
  have hbody : Gives (eval traced (depth + 4) (bodyEnv root place store) account .nil)
      (store.openScope [("b", .integer balance)]) (accountClosure (store.tables.size + 1))
      (made store root place balance) := by
    rw [← Store.size_openScope store [("b", .integer balance)]]
    exact .callByName (hshows.form .lambda) rfl (fun _ => rfl) (.lambda ["amt"] withdrawal)
  have hcall : Gives (step (.ofDepth traced (depth + 4)) ⟨[], root⟩ (makerClosure place)
      (.chain [.integer balance] .nil)) store (accountClosure (store.tables.size + 1))
      (made store root place balance) := gives_run "b" hbalance hbody
  have hmaker : store.get? ⟨[], root⟩ "make-account" = some (makerClosure place) := h.bound
  refine .callByName hmaker rfl (fun htraced => ?_) hcall
  simp [Event.obstacle?, Event.values, Value.obstacle?, hbalance htraced]

def opened (store : Store) (root place : TableId) (x : String) (balance : Int) : Store :=
  (made store root place balance).define root x (accountClosure (store.tables.size + 1))

/-- Creating an account binds its name in the root. -/
theorem gives_create (hroot : ShowsBuiltins installation (store.table root).get?)
    (h : Maker installation root store place) {balance : Int}
    (hbalance : traced = true → Text.isWritable balance = true) (x : String) :
    Gives (eval traced (depth + 8) ⟨[], root⟩ (Step.create x balance).form .nil) store
      (accountClosure (store.tables.size + 1)) (opened store root place x balance) := by
  have hdefine : store.get? ⟨[], root⟩ "define" = some (.form .define installation) :=
    hroot.form .define
  refine .callByName hdefine rfl (fun htraced => ?_) (.define (gives_make h hbalance))
  simp [Event.obstacle?, Event.values, Value.obstacle?, Value.chain, phrase, hbalance htraced]

/-- The definition of the procedure that makes accounts. -/
theorem gives_definition (hroot : ShowsBuiltins installation (store.table root).get?) :
    Gives (eval traced (depth + 7) ⟨[], root⟩ definition .nil) store
      (makerClosure store.tables.size)
      ((store.allocate (store.table root)).2.define root "make-account"
        (makerClosure store.tables.size)) := by
  have hdefine : store.get? ⟨[], root⟩ "define" = some (.form .define installation) :=
    hroot.form .define
  have hlambda : store.get? ⟨[], root⟩ "lambda" = some (.form .lambda installation) :=
    hroot.form .lambda
  have hmaker : Gives (eval traced (depth + 5) ⟨[], root⟩ maker .nil) store
      (makerClosure store.tables.size) (store.allocate (store.table root)).2 :=
    .callByName hlambda rfl (fun _ => rfl) (.lambda ["b"] account)
  exact .callByName hdefine rfl (fun _ => rfl) (.define hmaker)

end Calls

/-! ## Balances -/

section Tables

variable {installation : Nat} {root place id : TableId} {store store' : Store} {x : String}
  {balance : Int}

theorem Account.of_table (h : Account installation root store x balance place)
    (hbound : (store'.table root).get? x = (store.table root).get? x)
    (hplace : store'.table place = store.table place) :
    Account installation root store' x balance place :=
  ⟨hbound.trans h.bound, h.ne, hplace ▸ h.shows, hplace ▸ h.balance⟩

theorem Maker.of_table (h : Maker installation root store place)
    (hbound : (store'.table root).get? "make-account" = (store.table root).get? "make-account")
    (hplace : store'.table place = store.table place) : Maker installation root store' place :=
  ⟨hbound.trans h.bound, h.ne, hplace ▸ h.shows⟩

theorem table_paid (hid : id < store.tables.size) (hplace : place < store.tables.size)
    (amount rest : Int) : (paid store place amount rest).table id =
      if id = place then (store.table place).insert "b" (.integer rest) else store.table id := by
  have hlt : place < (store.openScope [("amt", .integer amount)]).tables.size := by
    rw [Store.size_openScope]
    exact Nat.lt_succ_of_lt hplace
  rw [paid, Store.table_define _ _ _ _ hlt, Store.table_openScope_of_lt hid,
    Store.table_openScope_of_lt hplace]

/-- An account that is called has another balance. -/
theorem Account.paid (h : Account installation root store x balance place)
    (hroot : root < store.tables.size) (amount rest : Int) :
    Account installation root (paid store place amount rest) x rest place := by
  have hlt := Prelude.lt_size_of_shows h.shows
  have hrootTable : (Accounts.paid store place amount rest).table root = store.table root := by
    rw [table_paid hroot hlt, if_neg h.ne.symm]
  have htable : (Accounts.paid store place amount rest).table place =
      (store.table place).insert "b" (.integer rest) := by
    rw [table_paid hlt hlt, if_pos rfl]
  refine ⟨by rw [hrootTable, h.bound], h.ne, ?_, ?_⟩
  · rw [htable]
    exact h.shows.insert (by decide) _
  · rw [htable, Table.get?_insert, if_pos rfl]

theorem table_made_of_lt (hid : id < store.tables.size) :
    (made store root place balance).table id = store.table id := by
  have hlt : id < (store.openScope [("b", .integer balance)]).tables.size := by
    rw [Store.size_openScope]
    exact Nat.lt_succ_of_lt hid
  rw [made, Store.table_allocate_of_lt hlt, Store.table_openScope_of_lt hid]

theorem table_opened_root (hroot : root < store.tables.size) :
    (opened store root place x balance).table root =
      (store.table root).insert x (accountClosure (store.tables.size + 1)) := by
  have hlt : root < (made store root place balance).tables.size := by
    rw [made, Store.size_allocate, Store.size_openScope]
    exact Nat.lt_add_right 2 hroot
  rw [opened, Store.table_define _ _ _ _ hlt, if_pos rfl, table_made_of_lt hroot]

theorem table_opened_of_lt (hid : id < store.tables.size) (hne : id ≠ root) :
    (opened store root place x balance).table id = store.table id := by
  rw [opened, Store.table_define_of_ne hne, table_made_of_lt hid]

/-- An account captures what the body of its maker sees. -/
theorem Maker.opened (h : Maker installation root store place) (hroot : root < store.tables.size) :
    Account installation root (opened store root place x balance) x balance
      (store.tables.size + 1) := by
  have hne : store.tables.size + 1 ≠ root := Nat.ne_of_gt (Nat.lt_succ_of_lt hroot)
  have hget (y : String) :
      ((Accounts.opened store root place x balance).table (store.tables.size + 1)).get? y =
        (store.openScope [("b", .integer balance)]).get? (bodyEnv root place store) y := by
    rw [Accounts.opened, Store.table_define_of_ne hne, made, Store.table_allocate,
      if_pos (Store.size_openScope ..).symm, Store.get?_collapse]
  refine ⟨?_, hne, fun y v hv => ?_, ?_⟩
  · rw [table_opened_root hroot, Table.get?_insert, if_pos rfl]
  · rw [hget]
    exact shows_body (by decide) h.shows y v hv
  · rw [hget, get?_body (Prelude.lt_size_of_shows h.shows), if_pos rfl]

end Tables

/-- The store after some steps: the procedure that makes accounts has captured the table `vault`,
and each account a table of its own, which has what is left of its balance. -/
structure Bank (installation : Nat) (root vault : TableId) (steps : List Step) (store : Store)
    (place : String → TableId) : Prop where
  shows : ShowsBuiltins installation (store.table root).get?
  maker : Maker installation root store vault
  account : ∀ x balance, .create x balance ∈ steps →
    Account installation root store x (balance - spent x steps) (place x)
  ne_vault : ∀ x ∈ names steps, place x ≠ vault
  injective : ∀ x ∈ names steps, ∀ y ∈ names steps, place x = place y → x = y

namespace Bank

variable {installation : Nat} {root vault : TableId} {steps : List Step} {store : Store}
  {place : String → TableId} {x : String} {balance : Int}

theorem place_lt (h : Bank installation root vault steps store place) (hx : x ∈ names steps) :
    place x < store.tables.size := by
  obtain ⟨balance, hmem⟩ := mem_names_iff.mp hx
  exact Prelude.lt_size_of_shows (h.account x balance hmem).shows

theorem balance_unique (h : Bank installation root vault steps store place) {balance' : Int}
    (hmem : .create x balance ∈ steps) (hmem' : .create x balance' ∈ steps) :
    balance = balance' := by
  have hsame := (h.account x balance hmem).balance.symm.trans (h.account x balance' hmem').balance
  have hrest := Value.integer.inj (Option.some.inj hsame)
  omega

/-- Creating an account keeps the balances of all others, also where its name is that of a
parameter. -/
theorem create (h : Bank installation root vault steps store place) (hvalid : Valid steps)
    (hbuiltin : x ∉ builtinNames) (hmaker : x ≠ "make-account") (hfresh : x ∉ names steps) :
    Bank installation root vault (steps ++ [.create x balance])
      (opened store root vault x balance) (Function.update place x (store.tables.size + 1)) := by
  have hroot := Prelude.lt_size_of_shows h.shows
  have hvault := Prelude.lt_size_of_shows h.maker.shows
  have hnames : names (steps ++ [.create x balance]) = names steps ++ [x] := names_append ..
  have hne {y : String} (hy : y ∈ names steps) : y ≠ x := fun hyx => hfresh (hyx ▸ hy)
  have hbound {y : String} (hy : y ≠ x) : ((opened store root vault x balance).table root).get? y =
      (store.table root).get? y := by
    rw [table_opened_root hroot, Table.get?_insert, if_neg hy]
  refine ⟨?_, ?_, fun y n hmem => ?_, ?_, ?_⟩
  · rw [table_opened_root hroot]
    exact h.shows.insert hbuiltin _
  · exact h.maker.of_table (hbound hmaker.symm) (table_opened_of_lt hvault h.maker.ne)
  · have hspent : spent y (steps ++ [.create x balance]) = spent y steps := by
      simp [spent_append, spent]
    rw [hspent]
    rcases List.mem_append.mp hmem with hmem | hmem
    · have hy := mem_names_iff.mpr ⟨n, hmem⟩
      have hold := h.account y n hmem
      rw [Function.update_of_ne (hne hy)]
      exact hold.of_table (hbound (hne hy)) (table_opened_of_lt (h.place_lt hy) hold.ne)
    · obtain ⟨rfl, rfl⟩ := Step.create.inj (List.mem_singleton.mp hmem)
      rw [Function.update_self, hvalid.spent_eq_zero hfresh, Int.sub_zero]
      exact h.maker.opened hroot
  · rw [hnames]
    intro y hy
    rcases List.mem_append.mp hy with hy | hy
    · rw [Function.update_of_ne (hne hy)]
      exact h.ne_vault y hy
    · rw [List.mem_singleton.mp hy, Function.update_self]
      exact Nat.ne_of_gt (Nat.lt_succ_of_lt hvault)
  · have hfree {y : String} (hy : y ∈ names steps) : place y ≠ store.tables.size + 1 :=
      Nat.ne_of_lt (Nat.lt_succ_of_lt (h.place_lt hy))
    rw [hnames]
    intro y hyall z hzall heq
    rcases List.mem_append.mp hyall with hy | hy <;> rcases List.mem_append.mp hzall with hz | hz
    · rw [Function.update_of_ne (hne hy), Function.update_of_ne (hne hz)] at heq
      exact h.injective y hy z hz heq
    · rw [Function.update_of_ne (hne hy), List.mem_singleton.mp hz, Function.update_self] at heq
      exact absurd heq (hfree hy)
    · rw [Function.update_of_ne (hne hz), List.mem_singleton.mp hy, Function.update_self] at heq
      exact absurd heq.symm (hfree hz)
    · rw [List.mem_singleton.mp hy, List.mem_singleton.mp hz]

/-- Calling an account lowers its balance and no other. -/
theorem call (h : Bank installation root vault steps store place)
    (hmem : .create x balance ∈ steps) (amount : Int) :
    Bank installation root vault (steps ++ [.call x amount])
      (paid store (place x) amount (balance - spent x steps - amount)) place := by
  have hx := mem_names_iff.mpr ⟨balance, hmem⟩
  have haccount := h.account x balance hmem
  have hroot := Prelude.lt_size_of_shows h.shows
  have hnames : names (steps ++ [.call x amount]) = names steps :=
    (names_append ..).trans (List.append_nil _)
  have hold {id : TableId} (hid : id < store.tables.size) (hne : id ≠ place x) :
      (paid store (place x) amount (balance - spent x steps - amount)).table id =
        store.table id := by
    rw [table_paid hid (h.place_lt hx), if_neg hne]
  have hrootTable := hold hroot haccount.ne.symm
  have hbound (y : String) := congrArg (Table.get? · y) hrootTable
  refine ⟨by rw [hrootTable]; exact h.shows, ?_, fun y n hy => ?_, ?_, ?_⟩
  · exact h.maker.of_table (hbound _)
      (hold (Prelude.lt_size_of_shows h.maker.shows) (h.ne_vault x hx).symm)
  · have hcreated : .create y n ∈ steps := by simpa using hy
    by_cases hyx : y = x
    · subst hyx
      have hrest : n - spent y (steps ++ [.call y amount]) = balance - spent y steps - amount := by
        rw [h.balance_unique hcreated hmem]
        simp only [spent_append, spent, if_true]
        omega
      rw [hrest]
      exact haccount.paid hroot amount _
    · have hyname := mem_names_iff.mpr ⟨n, hcreated⟩
      have hspent : spent y (steps ++ [.call x amount]) = spent y steps := by
        simp [spent_append, spent, Ne.symm hyx]
      rw [hspent]
      -- no two accounts share a table
      have hne : place y ≠ place x := fun heq => hyx (h.injective y hyname x hx heq)
      exact (h.account y n hcreated).of_table (hbound y) (hold (h.place_lt hyname) hne)
  · rw [hnames]
    exact h.ne_vault
  · rw [hnames]
    exact h.injective

end Bank

/-! ## Sessions -/

namespace Step

def name : Step → String
  | create x _ | call x _ => x

def integer : Step → Int
  | create _ n | call _ n => n

/-- An integer in a program has few enough digits to be read. -/
theorem isWritable_of_readAll {limit : Nat} {source : String} {step : Step}
    (h : Source.readAll limit source = .ok [step.form]) : Text.isWritable step.integer = true := by
  have hlegible := Source.legible_of_mem_readAll h List.mem_cons_self
  cases step with
  | create x n => exact hlegible.2.2.2.2.2.1.2.2.2.1
  | call x n => exact hlegible.2.2.2.1

theorem readable {step : Step} (hname : Expr.IsName step.name)
    (hinteger : Text.isWritable step.integer = true) : Readable step.form := by
  have hn : Readable (.integer step.integer) := ⟨⟨0, hinteger⟩, rfl, by simp⟩
  have hx : Readable (.symbol step.name) := .symbol hname.1 hname.2.1
  cases step with
  | create x n =>
    have hmake : Readable (phrase "make-account" [.integer n]) :=
      .phrase rfl (by decide) (List.forall_mem_singleton.mpr hn)
    exact .phrase rfl (by decide)
      (List.forall_mem_cons.mpr ⟨hx, List.forall_mem_singleton.mpr hmake⟩)
  | call x n => exact .phrase hname.1 hname.2.1 (List.forall_mem_singleton.mpr hn)

/-- A step can be written as a program, if its integer can. -/
theorem readAll_write {step : Step} {limit : Nat} (hlimit : 1000 ≤ limit)
    (hname : Expr.IsName step.name) (hinteger : Text.isWritable step.integer = true) :
    Source.readAll limit (String.ofList step.form.write) = .ok [step.form] := by
  have hreadable := readable hname hinteger
  obtain ⟨room, hroom⟩ := hreadable.legible
  have hreads : Reader.Expression
      (Cursor.meaningful (step.form.tokens .alone ++ [.endOfLine])) step.form := by
    refine ⟨room, ?_⟩
    rw [Source.meaningful_written]
    exact Reader.Derives.of_dotFree hroom hreadable.dotFree (by simp)
  have hlength : (step.form.tokens .alone ++ [Token.endOfLine]).length ≤ 9 := by
    cases step <;> exact Nat.le_of_ble_eq_true rfl
  rcases Cursor.readAll_of_expression (c := .ofTokens _) hreads limit with
    ⟨herror, hforms⟩ | ⟨hle, -⟩
  · exact Source.readAll_eq_ok_iff.mpr ⟨_, Value.tokens_write hroom, herror, hforms⟩
  · change limit ≤ 2 * (step.form.tokens .alone ++ [Token.endOfLine]).length at hle
    omega

end Step

section Run

variable {session : Session} {traced : Bool} {source : String} {world : World}

/-- A program that is one expression is answered with its value, if a trace can show it. -/
theorem run_of_gives {e v : Value} {store : Store}
    (hread : Source.readAll world.limit source = .ok [e])
    (h : Gives (eval traced world.limit session.env e .nil) world.store v store) :
    (session.run traced source world).world = { world with store } ∧
      (session.run traced source world).answer =
        if traced then (v.obstacle? world.limit).elim (.ok v)
          fun obstacle => .error (.ofFault (.ofWriteError obstacle))
        else .ok v := by
  obtain ⟨events, hforms⟩ := evaluateForms_of_readAll traced hread
  obtain ⟨events', heval⟩ := h events
  rw [Session.run_of_readAll hread, hforms]
  simp only [bind, EStateM.bind, heval]
  unfold Level.report
  cases traced with
  | false => exact ⟨rfl, rfl⟩
  | true =>
    have hvalue : (Event.evaluated v).obstacle? world.limit = v.obstacle? world.limit := by
      rw [Event.obstacle?, Event.values, List.findSome?_singleton]
    simp only [Level.ofDepth, hvalue]
    cases v.obstacle? world.limit <;> exact ⟨rfl, rfl⟩

/-- An integer is an answer, unless a trace cannot show it. -/
theorem shown_integer (traced : Bool) (n : Int) (depth : Nat) :
    (if traced then ((Value.integer n).obstacle? depth).elim (.ok (.integer n))
        fun obstacle => .error (.ofFault (.ofWriteError obstacle))
      else .ok (.integer n)) =
      if traced && !Text.isWritable n then .error (.evaluation .tooManyDigits)
      else (.ok (.integer n) : Except RunError Value) := by
  rw [Value.obstacle?]
  generalize Text.isWritable n = writable
  cases traced <;> cases writable <;> rfl

variable {installation : Nat} {vault : TableId} {place : String → TableId} {steps : List Step}
  {x : String} {balance amount : Int}

/-- A program that creates an account. -/
theorem run_create (traced : Bool)
    (h : Bank installation session.root vault steps world.store place)
    (hlimit : 8 ≤ world.limit)
    (hread : Source.readAll world.limit source = .ok [(Step.create x balance).form]) :
    (session.run traced source world).world =
      { world with store := opened world.store session.root vault x balance } := by
  obtain ⟨depth, hdepth⟩ := Nat.exists_eq_add_of_le' hlimit
  have hwritable := Step.isWritable_of_readAll hread
  have hgives : Gives (eval traced (depth + 8) session.env (Step.create x balance).form .nil)
      world.store _ _ := gives_create h.shows h.maker (fun _ => hwritable) x
  rw [← hdepth] at hgives
  exact (run_of_gives hread hgives).1

/-- A program that calls an account. -/
theorem run_call (traced : Bool)
    (h : Bank installation session.root vault steps world.store place)
    (hlimit : 8 ≤ world.limit) (hmem : .create x balance ∈ steps)
    (hread : Source.readAll world.limit source = .ok [(Step.call x amount).form]) :
    let rest := balance - spent x steps - amount
    (session.run traced source world).world =
        { world with store := paid world.store (place x) amount rest } ∧
      (session.run traced source world).answer =
        if traced && !Text.isWritable rest then .error (.evaluation .tooManyDigits)
        else .ok (.integer rest) := by
  intro rest
  obtain ⟨depth, hdepth⟩ := Nat.exists_eq_add_of_le' hlimit
  have hwritable := Step.isWritable_of_readAll hread
  have hgives : Gives (eval traced (depth + 1 + 7) session.env (Step.call x amount).form .nil)
      world.store _ _ := gives_call (h.account x balance hmem) fun _ => hwritable
  rw [Nat.add_assoc, ← hdepth] at hgives
  obtain ⟨hworld, hanswer⟩ := run_of_gives hread hgives
  exact ⟨hworld, hanswer.trans (shown_integer traced rest world.limit)⟩

theorem runAll_concat (sources : List String) :
    session.runAll traced (sources ++ [source]) world =
      (session.run traced source (session.runAll traced sources world)).world :=
  List.foldl_append

theorem limit_runAll (sources : List String) :
    (session.runAll traced sources world).limit = world.limit := by
  induction sources using List.reverseRecOn with
  | nil => rfl
  | append_singleton sources source ih =>
    rw [runAll_concat, Session.run_world]
    exact ih

/-- The store after programs that create and call accounts. -/
theorem bank_runAll (traced : Bool)
    (h : Bank installation session.root vault [] world.store place)
    (hlimit : 8 ≤ world.limit) {programs : List (Step × String)}
    (hvalid : Valid (programs.map Prod.fst))
    (hread : ∀ program ∈ programs,
      Source.readAll world.limit program.2 = .ok [program.1.form]) :
    ∃ place, Bank installation session.root vault (programs.map Prod.fst)
      (session.runAll traced (programs.map Prod.snd) world).store place := by
  induction programs using List.reverseRecOn with
  | nil => exact ⟨place, h⟩
  | append_singleton programs program ih =>
    obtain ⟨step, source⟩ := program
    have hsource := hread (step, source) (by simp)
    rw [← limit_runAll (programs.map Prod.snd)] at hlimit hsource
    simp only [List.map_append, List.map_cons, List.map_nil] at hvalid ⊢
    rw [runAll_concat]
    have hbefore (hvalid : Valid (programs.map Prod.fst)) :=
      ih hvalid fun program hmem => hread program (List.mem_append_left _ hmem)
    cases step with
    | create x balance =>
      obtain ⟨hvalid, hname, hmaker, hfresh⟩ := hvalid.of_create
      obtain ⟨place, hbank⟩ := hbefore hvalid
      rw [run_create traced hbank hlimit hsource]
      exact ⟨_, hbank.create hvalid hname.2.2 hmaker hfresh⟩
    | call x amount =>
      obtain ⟨hvalid, hmem⟩ := hvalid.of_call
      obtain ⟨place, hbank⟩ := hbefore hvalid
      obtain ⟨balance, hmem⟩ := mem_names_iff.mp hmem
      rw [(run_call traced hbank hlimit hmem hsource).1]
      exact ⟨place, hbank.call hmem amount⟩

/-- A call of an account after other calls, and after accounts have been created. -/
theorem run_call_after (traced : Bool)
    (h : Bank installation session.root vault [] world.store place)
    (hlimit : 8 ≤ world.limit) {programs : List (Step × String)}
    (hread : ∀ program ∈ programs,
      Source.readAll world.limit program.2 = .ok [program.1.form])
    (hcall : Source.readAll world.limit source = .ok [(Step.call x amount).form])
    (hvalid : Valid (programs.map Prod.fst ++ [.call x amount])) :
    let before := session.runAll traced (programs.map Prod.snd) world
    ∃ balance, .create x balance ∈ programs.map Prod.fst ∧
      let rest := balance - spent x (programs.map Prod.fst ++ [.call x amount])
      (session.run traced source before).answer =
          (if traced && !Text.isWritable rest then .error (.evaluation .tooManyDigits)
            else .ok (.integer rest)) ∧
        (session.run traced source before).world.store.table session.root =
          before.store.table session.root := by
  intro before
  obtain ⟨hcreated, hmem⟩ := hvalid.of_call
  obtain ⟨balance, hmem⟩ := mem_names_iff.mp hmem
  obtain ⟨place, hbank⟩ := bank_runAll traced h hlimit hcreated hread
  rw [← limit_runAll (programs.map Prod.snd)] at hlimit hcall
  obtain ⟨hworld, hanswer⟩ := run_call traced hbank hlimit hmem hcall
  have hrest : balance - spent x (programs.map Prod.fst ++ [.call x amount]) =
      balance - spent x (programs.map Prod.fst) - amount := by
    simp only [spent_append, spent, if_true]
    omega
  have haccount := hbank.account x balance hmem
  refine ⟨balance, hmem, hrest ▸ hanswer, ?_⟩
  rw [hworld]
  exact (table_paid (Prelude.lt_size_of_shows hbank.shows)
    (Prelude.lt_size_of_shows haccount.shows) _ _).trans (if_neg haccount.ne.symm)

/-- The store after the definition of the procedure that makes accounts. -/
theorem bank_definition (traced : Bool)
    (hroot : ShowsBuiltins installation (world.store.table session.root).get?)
    (hlimit : 7 ≤ world.limit)
    (hread : Source.readAll world.limit source = .ok [definition]) :
    Bank installation session.root world.store.tables.size []
      (session.run traced source world).world.store fun _ => 0 := by
  obtain ⟨depth, hdepth⟩ := Nat.exists_eq_add_of_le' hlimit
  have hgives : Gives (eval traced (depth + 7) session.env definition .nil) world.store _ _ :=
    gives_definition hroot
  rw [← hdepth] at hgives
  rw [(run_of_gives hread hgives).1]
  have hlt := Prelude.lt_size_of_shows hroot
  have hne : world.store.tables.size ≠ session.root := Nat.ne_of_gt hlt
  have htable : (((world.store.allocate (world.store.table session.root)).2.define session.root
      "make-account" (makerClosure world.store.tables.size)).table session.root) =
      (world.store.table session.root).insert "make-account"
        (makerClosure world.store.tables.size) := by
    rw [Store.table_define _ _ _ _ (Store.lt_size_allocate hlt _), if_pos rfl,
      Store.table_allocate_of_lt hlt]
  refine ⟨htable ▸ hroot.insert (by decide) _, ⟨?_, hne, ?_⟩, ?_, ?_, ?_⟩
  · rw [htable, Table.get?_insert, if_pos rfl]
  · rw [Store.table_define_of_ne hne, Store.table_allocate, if_pos rfl]
    exact hroot
  · simp
  · simp [names]
  · simp [names]

end Run

/-- **Accounts.** In a session that was opened without a prelude or with the core prelude, after
`(define make-account (lambda (b) (lambda (amt) (set! b (- b amt)))))`, accounts are created and
called in any order. Their names are different from each other and may be those of the parameters.

A call is answered with what the account was created with, less the sum of all amounts that it was
called with up to then. What the other accounts were called with does not matter. The root stays as
it was. Only where a trace has to show the answer, it must not have too many digits.

The texts of the programs are any that are read as these expressions. There are such texts, as long
as the integers in them do not have too many digits to be read. -/
theorem run_call_of_created {p : Process} (hp : p.Reached) {prelude : Prelude} {setting : String}
    {traced : Bool} {session : Session}
    (hprelude : ∀ source ∈ (Session.preludeSource? prelude).2, source = Prelude.core)
    (hstart : (Session.start prelude setting traced p.world).answer = .ok session) :
    let world := (Session.start prelude setting traced p.world).world
    Source.readAll world.limit
        "(define make-account (lambda (b) (lambda (amt) (set! b (- b amt)))))" =
      .ok [definition] ∧
    (∀ step : Step, Expr.IsName step.name → Text.isWritable step.integer = true →
      Source.readAll world.limit (String.ofList step.form.write) = .ok [step.form]) ∧
    ∀ (traced : Bool) (source : String) (programs : List (Step × String)) (x : String)
        (amount : Int) (text : String),
      Source.readAll world.limit source = .ok [definition] →
      (∀ program ∈ programs, Source.readAll world.limit program.2 = .ok [program.1.form]) →
      Source.readAll world.limit text = .ok [(Step.call x amount).form] →
      Valid (programs.map Prod.fst ++ [.call x amount]) →
      let before := session.runAll traced (source :: programs.map Prod.snd) world
      ∃ balance, .create x balance ∈ programs.map Prod.fst ∧
        let rest := balance - spent x (programs.map Prod.fst ++ [.call x amount])
        (session.run traced text before).answer =
            (if traced && !Text.isWritable rest then .error (.evaluation .tooManyDigits)
              else .ok (.integer rest)) ∧
          (session.run traced text before).world.store.table session.root =
            before.store.table session.root := by
  intro world
  have hlimit : 1000 ≤ world.limit := hp.le_limit_start prelude setting traced
  refine ⟨Source.readAll_of_le hlimit rfl,
    fun step hname hinteger => Step.readAll_write hlimit hname hinteger, ?_⟩
  intro traced source programs x amount text hsource hprograms htext hvalid before
  have hroot : ShowsBuiltins p.world.store.installations (world.store.table session.root).get? :=
    Prelude.shows_of_start hp hprelude hstart
  have hopened := bank_definition traced hroot (Nat.le_trans (by decide) hlimit) hsource
  have hsame : (session.run traced source world).world.limit = world.limit := by
    rw [Session.run_world]
  rw [← hsame] at hlimit hprograms htext
  exact run_call_after traced hopened (Nat.le_trans (by decide) hlimit) hprograms htext hvalid

/-- Two accounts under the names of the parameters. -/
theorem run_call_of_created_under_parameter_names :
    let session : Session := ⟨0⟩
    let programs := [(Step.create "b" 100, "(define b (make-account 100))"),
      (.create "amt" 20, "(define amt (make-account 20))"), (.call "b" 30, "(b 30)"),
      (.call "amt" 5, "(amt 5)")]
    let before := session.runAll false
      ("(define make-account (lambda (b) (lambda (amt) (set! b (- b amt)))))" ::
        programs.map Prod.snd)
      (Session.start (.text Prelude.core) "" false Process.initial.world).world
    (session.run false "(b 7)" before).answer = .ok (.integer 63) ∧
      (session.run false "(b 7)" before).world.store.table session.root =
        before.store.table session.root := by
  intro session programs before
  have hreached : Process.initial.Reached := .refl
  have hlimit := hreached.le_limit_start (.text Prelude.core) "" false
  have hprograms : ∀ program ∈ programs, Source.readAll 1000 program.2 = .ok [program.1.form] := by
    simp only [programs, List.forall_mem_cons]
    exact ⟨rfl, rfl, rfl, rfl, by simp⟩
  have hcreated : Valid [.create "b" 100, .create "amt" 20] :=
    (Valid.nil.create ⟨rfl, by decide, by decide⟩ (by decide) (by decide) 100).create
      ⟨rfl, by decide, by decide⟩ (by decide) (by decide) 20
  have hvalid : Valid (programs.map Prod.fst ++ [.call "b" 7]) :=
    ((hcreated.call (by decide) 30).call (by decide) 5).call (by decide) 7
  have hprelude : ∀ source ∈ (Session.preludeSource? (.text Prelude.core)).2,
      source = Prelude.core := by simp [Session.preludeSource?]
  obtain ⟨hdefinition, -, hcalls⟩ := run_call_of_created hreached hprelude Prelude.start_core
  obtain ⟨balance, hmem, hanswer, hroot⟩ := hcalls false _ programs "b" 7 "(b 7)" hdefinition
    (fun program hmem => Source.readAll_of_le hlimit (hprograms program hmem))
    (Source.readAll_of_le hlimit rfl) hvalid
  obtain rfl : balance = 100 := by simpa [programs] using hmem
  have hrest : 100 - spent "b" (programs.map Prod.fst ++ [.call "b" 7]) = 63 := by decide
  have hshown := hanswer.trans (if_neg Bool.false_ne_true)
  rw [hrest] at hshown
  dsimp only [session, programs, before] at hroot ⊢
  exact ⟨hshown, hroot⟩

end Accounts

end MiniScheme
